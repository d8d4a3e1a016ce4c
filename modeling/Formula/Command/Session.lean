import Formula.Command.Arguments
import Formula.Command.Script

/-!
# A session of the command

A session compiles a formula and prints the area under it, and on demand its tree and the
points of its graph. It asks for the formula, the limits and the number of divisions when
the arguments do not give them.
-/

set_option autoImplicit false

namespace Formula.Command

def isLineEnd (c : Char) : Bool :=
  c = '\r' || c = '\n'

def trimmed (text : String) : String :=
  String.ofList (Text.trim text.toList)

/-- Asks for a line. The answer is without the characters that end the line. -/
def prompt (message : String) : Script String := do
  Script.say message
  Script.ask fun line =>
    match line with
    | some line => .done (String.ofList (Text.dropRightWhile isLineEnd line.toList))
    | none =>
      .fail ⟨s!"Failed to read an answer to '{trimmed message}'",
        "stream did not contain valid UTF-8"⟩

/-- The value that is given, or else the one that the user answers. -/
def valueOrPrompt {α : Type} (value : Option α) (read : String → Except LiteralError α)
    (message : String) : Script α :=
  match value with
  | some value => .done value
  | none => do
    let answer ← prompt message
    match read (trimmed answer) with
    | .ok value => .done value
    | .error error =>
      .fail ⟨s!"'{answer}' is not a valid answer to '{trimmed message}'", error.message⟩

def formulaOrPrompt (formula : Option String) : Script String :=
  match formula with
  | some text => .done text
  | none => prompt "y = "

namespace Arguments

/-- Writes the entries that are severe enough to the journal. -/
def report (a : Arguments) (entries : List Journal.Entry) : Script Unit :=
  Script.logAll (entries.filter fun entry => entry.severity.detail ≤ a.detail)

def understanding (f : Compiled) : List Journal.Entry :=
  let source := "function_plotter_cli"
  f.warnings.map (fun warning => ⟨.warn, source, warning.message⟩) ++
    [⟨.info, source, s!"understood as {f.infixText}"⟩]

/-- The points of the graph, one a line. -/
def sampleText (grid : Grid) (f : Compiled) : String :=
  String.join ((grid.sample f.eval).map fun (x, y) => s!"{plainText x},{plainText y}\n")

def printArea (a : Arguments) (text : String) (f : Compiled) (lower upper : Float)
    (divisions : Nat) : Script Unit :=
  match area divisions lower upper f.eval with
  | .error error => .fail ⟨s!"Could not calculate the area of {text}", error.message⟩
  | .ok value => do
    a.report [Journal.ofPartition (Partition.between lower upper divisions)]
    Script.say s!"Area (rectangle method): {plainText value}\n"

def session (a : Arguments) : Script Unit := do
  let text ← formulaOrPrompt a.formula
  let f := Compiled.ofText a.grammar text
  a.report (Journal.ofText a.grammar text ++ understanding f)
  if a.tree then Script.say s!"{f.expr.outline}\n"
  Script.say s!"For f(x) = {text}:\n"
  let lower ← valueOrPrompt a.lower Literal.float? "Lower limit: "
  let upper ← valueOrPrompt a.upper Literal.float? "Upper limit: "
  let divisions ← valueOrPrompt a.divisions readDivisions "Number of divisions: "
  a.printArea text f lower upper divisions
  if a.samples then Script.say (sampleText a.grid f)

/-- What is seen of the session with a user who types the given bytes. -/
def outcome (a : Arguments) (input : List UInt8) : Outcome :=
  a.session.perform input

end Arguments

def versionText : String :=
  "function-plotter-cli 0.1.0\n"

def helpText : String :=
  String.join ([
    "Calculates the area under a function of x, and samples it for plotting",
    "",
    "USAGE:",
    "    function-plotter-cli [OPTIONS] [EXPRESSION]",
    "",
    "OPTIONS:",
    "    --lower <LOWER>          Lower limit of the area",
    "    --upper <UPPER>          Upper limit of the area",
    "    --divisions <DIVISIONS>  Number of rectangles",
    "    --left-associative       Fold chained operators",
    "    --tree                   Print the expression tree",
    "    --samples                Print the points of the graph",
    "    --points <POINTS>        Number of points [default: 9000]",
    "    --interval <INTERVAL>    Distance between points [default: 0.1]",
    "    -v, --verbose            Show more of the journal",
    "    -q, --quiet              Show less of the journal",
    "    -h, --help               Print this text",
    "    -V, --version            Print the version"].map (· ++ "\n"))

end Formula.Command

import Formula.Compiled
import Formula.Area
import Formula.Expr.Outline
import Formula.Token.Inspect

/-!
# The journal

What happens while a formula is compiled and its area is computed, as entries of different
severity. A reader of the journal chooses the least severity to be shown.
-/

set_option autoImplicit false

namespace Formula.Journal

inductive Severity where
  | error
  | warn
  | info
  | debug
  | trace
  deriving DecidableEq

namespace Severity

/-- Each severity needs one more level of detail than the one before it. -/
def detail : Severity → Nat
  | error => 0
  | warn => 1
  | info => 2
  | debug => 3
  | trace => 4

/-- The name, five characters wide. -/
def title : Severity → String
  | error => "ERROR"
  | warn => "WARN "
  | info => "INFO "
  | debug => "DEBUG"
  | trace => "TRACE"

end Severity

structure Entry where
  severity : Severity
  source : String
  message : String

/-- The text with its lines after the first one moved right by four blanks. -/
def indented (text : String) : String :=
  String.ofList (text.toList.flatMap fun c =>
    if c = '\n' then ['\n', ' ', ' ', ' ', ' '] else [c])

/-- The entry as it is shown, without a line feed at its end. -/
def Entry.text (e : Entry) : String :=
  s!"[{e.severity.title} {e.source}] {indented e.message}"

/-- The entries one after the other, each on lines of its own. -/
def text (entries : List Entry) : String :=
  String.join (entries.map fun entry => entry.text ++ "\n")

def ofToken (token : Token) : Entry :=
  ⟨.trace, "function_plotter::interpreter::lexer", s!"lexed {token.inspect}"⟩

def ofStep (step : Step) : Entry :=
  ⟨.trace, "function_plotter::interpreter::parser::recursive_descent",
    match step with
    | .factor token => s!"factor starts with {token.inspect}"
    | .sign op => s!"reading {op.kindName} as a sign"
    | .tooDeep => s!"nesting deeper than {deepestNesting} levels"⟩

def ofReading (reading : Reading) : List Entry :=
  let source := "function_plotter::interpreter::parser"
  ⟨.debug, source, s!"parsed expression tree:\n{reading.expr.outline}"⟩ ::
    (if reading.unconsumed.isEmpty then []
    else [⟨.debug, source, s!"{reading.unconsumed.length} token(s) left after the expression"⟩])

def ofCompiled (text : String) (f : Compiled) : Entry :=
  ⟨.debug, "function_plotter::interpreter::function",
    s!"compiled '{text}' into {f.expr.size} node(s) with {f.warnings.length} warning(s)"⟩

/-- The entries about the compiling of a text, in order. -/
def ofText (grammar : Grammar) (text : String) : List Entry :=
  let tokens := Token.ofText text
  tokens.map ofToken ++ (grammar.steps tokens).map ofStep ++ ofReading (grammar.read tokens) ++
    [ofCompiled text (Compiled.ofText grammar text)]

def ofPartition (p : Partition Float) : Entry :=
  ⟨.debug, "function_plotter::integration",
    s!"summed {p.divisions} rectangles of width {plainText p.width} " ++
      s!"over [{plainText p.lower}, {plainText p.upper}]"⟩

end Formula.Journal

import Formula.Command.Literal
import Formula.Grammar.Reading
import Formula.Grid

/-!
# The arguments of the command

An argument is the formula, a switch, or an option with a value, which stands after an
equals sign or is the next argument. The arguments are first split by their form, from left
to right, up to one that has none of these forms or that asks for help or the version. Then
the values are read. Every option and switch is given at most once, except the two that
change the detail of the journal; those are never given together.
-/

set_option autoImplicit false

namespace Formula.Command

inductive Field where
  | lower
  | upper
  | divisions
  | points
  | interval
  deriving DecidableEq

inductive Switch where
  | chained
  | tree
  | samples
  | louder
  | quieter
  | help
  | version
  deriving DecidableEq

structure Arguments where
  formula : Option String := none
  lower : Option Float := none
  upper : Option Float := none
  divisions : Option Nat := none
  points : Option Nat := none
  interval : Option Float := none
  chained : Bool := false
  tree : Bool := false
  samples : Bool := false
  louder : Nat := 0
  quieter : Nat := 0

def divisionsBound : Nat := 0x100000000

def pointsBound : Nat := 0x10000000000000000

structure Given where
  formula : Option String := none
  /-- Every occurrence of an option, with the text of its value unless that is missing. -/
  values : List (Field × Option String) := []
  switches : List Switch := []

inductive Request (α : Type) where
  | run (arguments : α)
  | help
  | version
  | refused

namespace Request

def andThen {α β : Type} (request : Request α) (next : α → Request β) : Request β :=
  match request with
  | run arguments => next arguments
  | help => help
  | version => version
  | refused => refused

/-- The request to run, or a refusal if there is nothing to run. -/
def ofOption {α : Type} : Option α → Request α
  | some arguments => run arguments
  | none => refused

end Request

namespace Field

def ofName? : String → Option Field
  | "lower" => some lower
  | "upper" => some upper
  | "divisions" => some divisions
  | "points" => some points
  | "interval" => some interval
  | _ => none

/-- Whether the value may start with a hyphen when it is an argument of its own. -/
def takesHyphen : Field → Bool
  | lower | upper => true
  | _ => false

end Field

namespace Switch

def ofName? : String → Option Switch
  | "left-associative" => some chained
  | "tree" => some tree
  | "samples" => some samples
  | "verbose" => some louder
  | "quiet" => some quieter
  | "help" => some help
  | "version" => some version
  | _ => none

def ofLetter? : Char → Option Switch
  | 'v' => some louder
  | 'q' => some quieter
  | 'h' => some help
  | 'V' => some version
  | _ => none

end Switch

namespace Arguments

def grammar (a : Arguments) : Grammar :=
  if a.chained then .chained else .single

/-- The grid of samples, with defaults for what is not given. -/
def grid (a : Arguments) : Grid :=
  let default : Grid := {}
  { points := a.points.getD default.points, interval := a.interval.getD default.interval }

/-- The detail of the journal that is shown: warnings and errors, if not asked otherwise.
It is counted in eight bits with a sign, and nothing is shown below zero. -/
def detail (a : Arguments) : Int :=
  (1 + a.louder - a.quieter : Int).bmod 256

end Arguments

def readDivisions : String → Except LiteralError Nat :=
  Literal.count? divisionsBound

def readPoints : String → Except LiteralError Nat :=
  Literal.count? pointsBound

inductive Argument where
  | formula (text : String)
  /-- A name after two hyphens, and what follows an equals sign. -/
  | named (name : String) (value : Option String)
  | letters (cluster : List Char)
  /-- All further arguments are formulas. -/
  | endOfOptions

def Argument.ofText (text : String) : Argument :=
  match text.toList with
  | ['-', '-'] => endOfOptions
  | '-' :: '-' :: rest =>
    let name := String.ofList (rest.takeWhile (· ≠ '='))
    match rest.dropWhile (· ≠ '=') with
    | [] => named name none
    | _ :: value => named name (some (String.ofList value))
  | '-' :: c :: rest => letters (c :: rest)
  | _ => formula text

/-- Whether the text stands for itself and not for an option. -/
def isValue (text : String) : Bool :=
  match Argument.ofText text with
  | .formula _ => true
  | _ => false

namespace Given

def setFormula (g : Given) (text : String) : Request Given :=
  if g.formula.isSome then .refused else .run { g with formula := some text }

/-- Sets the formula to the only one of some arguments. -/
def setFormulas (g : Given) : List String → Request Given
  | [] => .run g
  | text :: rest => (g.setFormula text).andThen (·.setFormulas rest)

def addValue (g : Given) (field : Field) (text : Option String) : Given :=
  { g with values := (field, text) :: g.values }

/-- Turns a switch on. Help and the version are requests of their own. -/
def turnOn (g : Given) : Switch → Request Given
  | .help => .help
  | .version => .version
  | switch => .run { g with switches := switch :: g.switches }

/-- Turns on the switches of a cluster of letters, up to the first that is a request. -/
def turnOnAll (g : Given) : List Char → Request Given
  | [] => .run g
  | c :: rest =>
    match Switch.ofLetter? c with
    | some switch => (g.turnOn switch).andThen (·.turnOnAll rest)
    | none => .refused

/-- Splits arguments in addition to those split before. -/
def extend (g : Given) : List String → Request Given
  | [] => .run g
  | text :: rest =>
    match Argument.ofText text with
    | .endOfOptions => g.setFormulas rest
    | .formula text => (g.setFormula text).andThen (·.extend rest)
    | .letters cluster => (g.turnOnAll cluster).andThen (·.extend rest)
    | .named name (some value) =>
      match Field.ofName? name with
      | some field => (g.addValue field (some value)).extend rest
      | none => .refused
    | .named name none =>
      match Field.ofName? name, Switch.ofName? name with
      | some field, _ =>
        match rest with
        | [] => .run (g.addValue field none)
        | value :: rest =>
          if field.takesHyphen || isValue value then (g.addValue field (some value)).extend rest
          else (g.addValue field none).extend (value :: rest)
      | none, some switch => (g.turnOn switch).andThen (·.extend rest)
      | none, none => .refused

/-- The value of a field that is given at most once, with a text that is a value. -/
def value? {α : Type} (g : Given) (field : Field) (read : String → Except LiteralError α) :
    Option (Option α) :=
  match (g.values.filter (·.1 = field)).map (·.2) with
  | [] => some none
  | [some text] => (read text).toOption.map some
  | _ => none

/-- Whether a switch that is given at most once is given. -/
def switch? (g : Given) (switch : Switch) : Option Bool :=
  match g.switches.count switch with
  | 0 => some false
  | 1 => some true
  | _ => none

/-- The arguments, if all values are read and agree with each other. -/
def arguments? (g : Given) : Option Arguments := do
  let lower ← g.value? .lower Literal.float?
  let upper ← g.value? .upper Literal.float?
  let divisions ← g.value? .divisions readDivisions
  let points ← g.value? .points readPoints
  let interval ← g.value? .interval Literal.float?
  let chained ← g.switch? .chained
  let tree ← g.switch? .tree
  let samples ← g.switch? .samples
  let louder := g.switches.count .louder
  let quieter := g.switches.count .quieter
  if 0 < louder && 0 < quieter then none
  else
    some { formula := g.formula, lower, upper, divisions, points, interval, chained, tree,
           samples, louder, quieter }

end Given

def Request.ofArguments (texts : List String) : Request Arguments :=
  (({} : Given).extend texts).andThen fun g => .ofOption g.arguments?

end Formula.Command

import Formula.Journal

/-!
# Scripts

A script is a conversation with the user: it prints, writes to the journal, asks for lines,
and ends, either well or with a failure. `perform` holds the conversation with a user whose
whole input is known.
-/

set_option autoImplicit false

namespace Formula.Command

structure Failure where
  context : String
  cause : String
  deriving DecidableEq

/-- The failure as it is shown, every line ended by a line feed. -/
def Failure.text (f : Failure) : String :=
  s!"Error: {f.context}\n\nCaused by:\n    {f.cause}\n"

/-- A line of input with its line end, unless its bytes are not UTF-8. -/
abbrev Line := Option String

inductive Script (α : Type) where
  | done (result : α)
  | fail (failure : Failure)
  | print (text : String) (next : Script α)
  | log (entry : Journal.Entry) (next : Script α)
  | ask (next : Line → Script α)

namespace Script

def andThen {α β : Type} (s : Script α) (k : α → Script β) : Script β :=
  match s with
  | done result => k result
  | fail failure => fail failure
  | print text next => print text (next.andThen k)
  | log entry next => log entry (next.andThen k)
  | ask next => ask fun line => (next line).andThen k

instance : Monad Script where
  pure := done
  bind := andThen

def say (text : String) : Script Unit :=
  print text (done ())

def logAll : List Journal.Entry → Script Unit
  | [] => done ()
  | entry :: rest => log entry (logAll rest)

end Script

/-- The bytes of the first line, with its line feed, and the bytes after it. -/
def splitLine : List UInt8 → List UInt8 × List UInt8
  | [] => ([], [])
  | byte :: rest =>
    if byte = 10 then ([byte], rest)
    else (byte :: (splitLine rest).1, (splitLine rest).2)

def decodeLine (bytes : List UInt8) : Line :=
  String.fromUTF8? ⟨bytes.toArray⟩

structure Outcome where
  stdout : String := ""
  journal : List Journal.Entry := []
  failure : Option Failure := none

namespace Outcome

def exitCode (o : Outcome) : Nat :=
  if o.failure.isSome then 1 else 0

/-- The text on standard error: the journal, and then the failure, with these texts for them. -/
def stderrWith (journalText : List Journal.Entry → String) (failureText : Failure → String)
    (o : Outcome) : String :=
  journalText o.journal ++ (o.failure.map failureText).getD ""

def stderr : Outcome → String :=
  stderrWith Journal.text Failure.text

end Outcome

/-- The conversation with a user who types the given bytes. -/
def Script.perform {α : Type} : Script α → List UInt8 → Outcome
  | done _, _ => {}
  | fail failure, _ => { failure := some failure }
  | print text next, input =>
    let o := next.perform input
    { o with stdout := text ++ o.stdout }
  | log entry next, input =>
    let o := next.perform input
    { o with journal := entry :: o.journal }
  | ask next, input =>
    let (line, rest) := splitLine input
    (next (decodeLine line)).perform rest

end Formula.Command

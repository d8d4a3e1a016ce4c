import Formula.Command.Session

/-!
# The command

Holds the conversation of a session with the user at the terminal.
-/

set_option autoImplicit false

namespace Formula.Command

/-- Reads the bytes up to a line feed or the end of the input, after those read before. -/
partial def readBytes (input : IO.FS.Stream) (before : List UInt8) : IO (List UInt8) := do
  match (← input.read 1).toList with
  | [] => return before.reverse
  | byte :: _ =>
    if byte = 10 then return (byte :: before).reverse else readBytes input (byte :: before)

def readLine (input : IO.FS.Stream) : IO Line := do
  return decodeLine (← readBytes input [])

/-- Holds a conversation with the user, and returns the exit code. -/
def Script.converse (input output errors : IO.FS.Stream) : Script Unit → IO UInt32
  | done _ => return 0
  | fail failure => do
    errors.putStr failure.text
    return 1
  | print text next => do
    output.putStr text
    output.flush
    next.converse input output errors
  | log entry next => do
    errors.putStr (entry.text ++ "\n")
    next.converse input output errors
  | ask next => do
    (next (← readLine input)).converse input output errors

end Formula.Command

open Formula.Command in
/-- Runs the command. The exit code is 2 if the arguments are not understood. -/
def main (arguments : List String) : IO UInt32 := do
  let output ← IO.getStdout
  let errors ← IO.getStderr
  match Request.ofArguments arguments with
  | .run a => a.session.converse (← IO.getStdin) output errors
  | .help => do
    output.putStr helpText
    return 0
  | .version => do
    output.putStr versionText
    return 0
  | .refused => do
    errors.putStr helpText
    return 2

import InfixArithmetic.CommandLine

/-!
The program: it reports on the expression among its arguments, or holds a dialogue without one.
-/

namespace InfixArithmetic.Console

def usage : String :=
  "Usage: [--mode normal|rpn] [--tree] [--postfix] [EXPRESSION]"

def complain (chain : List String) : IO UInt32 := do
  let output ← IO.getStderr
  chain.forM output.putStrLn
  return 1

/-- Reads up to a line feed, or nothing at the end of the input. -/
partial def readLine (input : IO.FS.Stream) (line : List UInt8) : IO (List UInt8) := do
  match (← input.read 1).toList with
  | [] => return line.reverse
  | b :: _ =>
      if b = Dialogue.newline then return (b :: line).reverse
      else readLine input (b :: line)

partial def converse (o : Options) (input output : IO.FS.Stream) : IO UInt32 := do
  output.putStr Dialogue.prompt
  output.flush
  match ← readLine input [] with
  | [] => return 0
  | line =>
      match Dialogue.react o line with
      | .ok response =>
          output.putStr response
          converse o input output
      | .error ending =>
          match ending.chain? with
          | none => return 0
          | some chain => complain chain

def run (a : Arguments) : IO UInt32 := do
  match a.expression with
  | none => converse a.options (← IO.getStdin) (← IO.getStdout)
  | some text =>
      match a.options.report text with
      | .ok report =>
          IO.print (report.getD "")
          return 0
      | .error complaint => complain complaint.chain

end InfixArithmetic.Console

def main (words : List String) : IO UInt32 := do
  match InfixArithmetic.Arguments.ofList? words with
  | some a => InfixArithmetic.Console.run a
  | none => InfixArithmetic.Console.complain [InfixArithmetic.Console.usage]

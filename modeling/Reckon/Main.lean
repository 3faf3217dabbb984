import Reckon.CommandLine

/-!
# Main — the program

Hands the arguments and the environment to `CommandLine.run` and writes what it answers.
-/

namespace Reckon
namespace CommandLine

/-- Writes an outcome and answers the exit status. -/
def Outcome.write (outcome : Outcome) : IO UInt32 := do
  match outcome with
  | .finished status output diagnostics =>
    IO.print output
    IO.eprint diagnostics
    return status.toUInt32
  | .refused cause =>
    IO.eprint (usage ++ cause.line ++ "\n")
    return 2
  | .helped =>
    IO.print help
    return 0
  | .aborted cause =>
    IO.eprintln cause.message
    return 1

end CommandLine
end Reckon

def main (arguments : List String) : IO UInt32 := do
  let level ← IO.getEnv "CALC_LOG_LEVEL"
  let listing ← IO.getEnv "CALC_DISASM"
  (Reckon.CommandLine.run { level, listing } arguments).write

import MobSkills.Command.Run

/-!
# The command line

Runs a command on the files of the disk and the standard streams. All that it
decides is which error of the system is which error of a command.
-/
namespace MobSkills.CommandLine

def usage : String :=
  "usage: [--config FILE] parse LINE [--json] | fmt LINE... | check FILE [--deny-warnings]\n" ++
  "  | fmt-project FILE [--write] | complete TEXT [--cursor N] [--project FILE] | search QUERY\n"

def fileError : IO.Error → FileError
  | .noFileOrDirectory .. => .notFound
  | .inappropriateType _ 20 _ => .notFolder
  | .inappropriateType _ 21 _ => .isFolder
  | .invalidArgument _ 36 _ => .nameTooLong
  | e => .other (toString e)

/-- Access to the files of the disk. -/
def diskAccess : FileAccess IO where
  read path := do
    try return .ok (← IO.FS.readFile path)
    catch e => return .error (fileError e)
  write path text := do
    try
      IO.FS.writeFile path text
      return .ok ()
    catch e => return .error (fileError e)

end MobSkills.CommandLine

def main (arguments : List String) : IO UInt32 := do
  match MobSkills.Arguments.parse? arguments with
  | none =>
    IO.eprint MobSkills.CommandLine.usage
    return 2
  | some invocation =>
    let result ← MobSkills.Command.run MobSkills.CommandLine.diskAccess invocation
    IO.print result.stdout
    IO.eprint result.stderr
    return UInt32.ofNat result.code

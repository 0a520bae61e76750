/-
The command line program.
-/
import ContractBasic.CommandLine.Run

open ContractBasic

/-- The fault behind an error of the operating system. -/
def faultOf : IO.Error → FileFault
  | .noFileOrDirectory _ _ _ => .notFound
  | .inappropriateType _ 20 _ => .notDirectory
  | .inappropriateType _ _ _ => .isDirectory
  | .invalidArgument _ 36 _ => .nameTooLong
  | e => .other (toString e)

/-- The files of the operating system. -/
def systemFiles : Files IO where
  read path := do
    try
      let bytes ← IO.FS.readBinFile path
      match String.fromUTF8? bytes with
      | some text => pure (.ok text)
      | none => pure (.error .notText)
    catch e => pure (.error (faultOf e))
  write path text := do
    try
      IO.FS.writeFile path text
      pure (.ok ())
    catch e => pure (.error (faultOf e))

/-- How the program is called. -/
def usage : String :=
  "Usage: [--config FILE] parse|generate|check INPUT [OPTIONS]\n" ++
    "  parse:    --keep-empty-lines --check-goto --pretty\n" ++
    "  generate: --keep-empty-lines --check-goto --minify --comments --optimize-space\n" ++
    "            -o, --output FILE  --mapping FILE\n" ++
    "  check:    --keep-empty-lines --check-goto"

/-- Runs the command line. -/
def main (args : List String) : IO UInt32 := do
  match Invocation.ofWords args with
  | .error problem =>
    if problem.exitCode = 0 then IO.println usage else IO.eprintln usage
    return UInt32.ofNat problem.exitCode
  | .ok invocation =>
    let report ← invocation.run systemFiles
    IO.print report.output
    report.warnings.forM fun line => IO.eprintln line
    if let some failure := report.failure then
      IO.eprint failure.message
    return UInt32.ofNat report.exitCode

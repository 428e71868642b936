import Staging.Command

namespace Staging

/-- The text of an error number, which some calls report as a negative one. -/
def systemMessage (code : UInt32) (details : String) : String :=
  let code := if code < 0x80000000 then code else 0 - code
  let text := match code with
    | 2 => "No such file or directory"
    | 6 => "No such device or address"
    | 13 => "Permission denied"
    | 20 => "Not a directory"
    | 21 => "Is a directory"
    | 28 => "No space left on device"
    | 36 => "File name too long"
    | 40 => "Too many levels of symbolic links"
    | _ => details
  text ++ " (os error " ++ toString code ++ ")"

/-- Why the system refused a file. -/
def systemReason : IO.Error → String
  | .noFileOrDirectory _ code details => systemMessage code details
  | .noSuchThing _ code details => systemMessage code details
  | .permissionDenied _ code details => systemMessage code details
  | .inappropriateType _ code details => systemMessage code details
  | .invalidArgument _ code details => systemMessage code details
  | .resourceExhausted _ code details => systemMessage code details
  | .userError _ => "stream did not contain valid UTF-8"
  | e => toString e

def attempt {α : Type} (action : IO α) : IO (Except String α) := do
  try
    return .ok (← action)
  catch e =>
    return .error (systemReason e)

/-- Writes a file, and makes sure that the system has taken all of it. -/
def writeAll (path text : String) : IO Unit :=
  IO.FS.withFile path .write fun file => do
    file.putStr text
    file.flush

/-- The files of the system. -/
def systemFiles : FileAccess IO where
  read path := attempt (IO.FS.readFile path)
  write path text := attempt (writeAll path text)

end Staging

def main (args : List String) : IO UInt32 := do
  let response ← (Staging.Request.ofArguments args).perform Staging.systemFiles
  IO.eprint response.stderr
  IO.print response.stdout
  return response.exit.toUInt32

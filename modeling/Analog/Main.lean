import Analog.Command.Run
import Analog.Text.Bytes

/-!
The command line program: reads the files that a run may need, and prints its response.
-/

namespace Analog

def faultOf : IO.Error → FileFault
  | .inappropriateType _ code _ => if code == 21 then .isFolder else .beyondFile
  | .illegalOperation code _ => if code == 21 then .isFolder else .missing
  | _ => .missing

def readText (name : String) : IO (Except FileFault String) := do
  try
    let bytes ← IO.FS.readBinFile name
    return .ok (String.ofList (Text.decode bytes.toList))
  catch e => return .error (faultOf e)

def fileNames (args : List String) : List String :=
  args.flatMap fun s => [s, String.ofList ((s.toList.dropWhile (· != '=')).drop 1)]

end Analog

open Analog in
def main (args : List String) : IO UInt32 := do
  let names := fileNames args
  let texts ← names.mapM readText
  let files := fun name => ((names.zip texts).lookup name).getD (.error .missing)
  let response := Command.run files args
  IO.print response.output
  return response.code.toUInt32

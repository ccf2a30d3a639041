import Analog.Command.Folder
import Analog.Command.Options
import Analog.Config.File
import Analog.Device.Report
import Analog.Program.Elaborate

/-!
What the commands print. Files come in through a function, so that a run is a function of its
arguments and its files.
-/
namespace Analog

structure Response where
  code : Nat
  output : String
  deriving DecidableEq, Repr

namespace Response

def usageError : Response := ⟨1, ""⟩

def ofLine (code : Nat) (line : String) : Response := ⟨code, line ++ "\n"⟩

def ofLines (lines : List String) : Response := ⟨0, String.join (lines.map (· ++ "\n"))⟩

end Response

namespace Command

abbrev Files := String → Except FileFault String

def define (parameters : List (String × String)) (definition : String) :
    Except String (List (String × String)) :=
  let name := definition.toList.takeWhile (· != '=')
  match definition.toList.dropWhile (· != '=') with
  | _ :: text =>
    if name.isEmpty then .error ("malformed definition \"" ++ definition ++ "\"")
    else .ok (Config.put parameters (String.ofList name) (String.ofList text))
  | [] => .error ("malformed definition \"" ++ definition ++ "\"")

def fileConfig (files : Files) (name : String) : Except String Config :=
  if name == "" then .ok .default
  else match files name with
    | .error fault => .error (fault.message name)
    | .ok text =>
      match ConfigFile.read text with
      | .ok c => .ok c
      | .error e => .error ("reading " ++ name ++ ": " ++ e.message)

def config (files : Files) (o : Options) : Except String Config := do
  let c ← fileConfig files o.configFile
  let parameters ← o.definitions.foldlM define c.parameters
  let c : Config :=
    { c with
      simplify := c.simplify && o.simplify
      parameters := parameters
      maxIterations := if o.maxIterations == 0 then c.maxIterations else o.maxIterations }
  match c.fault? with
  | some p => .error p.message
  | none => .ok c

def sources (files : Files) (names : List String) : Except String (List SourceText) :=
  let unread := names.filterMap fun n => match files n with
    | .ok _ => none
    | .error fault => some ("reading source file: " ++ fault.message n)
  if unread.isEmpty then
    .ok (names.filterMap fun n => (files n).toOption.map (SourceText.ofString n))
  else .error ("; ".intercalate unread)

def reports (c : Config) (s : SourceText) : List String :=
  match s.devices c with
  | .ok _ => []
  | .error ds => ds.map fun d => s.report d false

def devices (c : Config) (s : SourceText) : List Device :=
  match s.devices c with
  | .ok ms => ms
  | .error _ => []

def elaborate (files : Files) (o : Options) (names : List String) (view : Device → List String) :
    Response :=
  match config files o with
  | .error message => .ofLine 2 message
  | .ok c =>
    match sources files names with
    | .error message => .ofLine 3 message
    | .ok ss =>
      let wrong := ss.flatMap (reports c)
      if wrong.isEmpty then .ofLines ((ss.flatMap (devices c)).flatMap view)
      else ⟨4, String.join wrong⟩

def run (files : Files) (args : List String) : Response :=
  let (command, rest) := CommandLine.command args
  match command, CommandLine.read command rest with
  | _, none => .usageError
  | .overview, some _ => if CommandLine.isOverview rest then ⟨0, ""⟩ else .usageError
  | command, some (o, names) =>
    if o.help then ⟨0, ""⟩
    else if names.isEmpty then .usageError
    else match command with
      | .deps => elaborate files o names (·.branchReport o.all)
      | _ => elaborate files o names (·.resolvedReport)

end Command
end Analog

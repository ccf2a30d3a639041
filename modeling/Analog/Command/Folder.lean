import Analog.Text.Bytes

/-!
The folder that a command runs in. A path goes through it part by part: a dot stays where it is, two
dots go outwards, and beyond a file there is nothing. Of what lies outside, only the empty file
`/dev/null` is known.
-/
namespace Analog

inductive FileFault where
  | missing
  | beyondFile
  | isFolder
  | longName
  deriving DecidableEq, Repr

def FileFault.message (path : String) : FileFault → String
  | missing => "open " ++ path ++ ": no such file or directory"
  | beyondFile => "open " ++ path ++ ": not a directory"
  | isFolder => "read " ++ path ++ ": is a directory"
  | longName => "open " ++ path ++ ": file name too long"

structure Folder where
  files : List (List (List Char) × String)

namespace Folder

def parts : List Char → List (List Char)
  | [] => [[]]
  | c :: cs =>
    if c == '/' then [] :: parts cs
    else match parts cs with
      | p :: ps => (c :: p) :: ps
      | [] => [[c]]

def ofFiles (files : List (String × String)) : Folder :=
  ⟨files.map fun (name, text) => (parts name.toList, text)⟩

inductive Place where
  | inside (names : List (List Char))
  | outside
  | file (text : String)
  deriving DecidableEq, Repr

def longest : Nat := 255

def hasFolder (f : Folder) (path : List (List Char)) : Bool :=
  f.files.any fun (names, _) => path.isPrefixOf names && path.length < names.length

def step (f : Folder) (part : List Char) : Place → Except FileFault Place
  | .file _ => .error .beyondFile
  | .outside =>
    if part == [] || part == ['.'] || part == ['.', '.'] then .ok .outside
    else if longest < (Text.encode part).length then .error .longName
    else .error .missing
  | .inside names =>
    if part == [] || part == ['.'] then .ok (.inside names)
    else if part == ['.', '.'] then .ok (match names with
      | _ :: outer => .inside outer
      | [] => .outside)
    else if longest < (Text.encode part).length then .error .longName
    else
      let path := (part :: names).reverse
      match f.files.lookup path with
      | some text => .ok (.file text)
      | none => if f.hasFolder path then .ok (.inside (part :: names)) else .error .missing

def read (f : Folder) (path : String) : Except FileFault String :=
  match path.toList with
  | [] => .error .missing
  | c :: cs => do
    if path == "/dev/null" then return ""
    let start := if c == '/' then Place.outside else .inside []
    let place ← (parts (c :: cs)).foldlM (fun place part => f.step part place) start
    match place with
    | .file text => return text
    | _ => throw .isFolder

end Folder
end Analog

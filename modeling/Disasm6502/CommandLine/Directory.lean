/-!
# Directories

A directory of plain files, and what opening a path in it yields. A path is followed part by part: a part
that is empty or a dot stays in a directory, two dots leave it, and any other part is the name of a file.
Outside of the directory nothing has a name. Names and whole paths have a greatest size.
-/
namespace Disasm6502

abbrev Directory := List (String × List UInt8)

inductive Refusal where
  | notFound
  | isDirectory
  | notDirectory
  | nameTooLong
  | nulInName
deriving DecidableEq

namespace Refusal

def text : Refusal → String
  | notFound => "No such file or directory (os error 2)"
  | isDirectory => "Is a directory (os error 21)"
  | notDirectory => "Not a directory (os error 20)"
  | nameTooLong => "File name too long (os error 36)"
  | nulInName => "file name contained an unexpected NUL byte"

end Refusal

namespace Directory

/-- The most bytes that a name can have. -/
def nameLimit : Nat := 255

/-- The most bytes that a path can have. -/
def pathLimit : Nat := 4095

/-- Where a path has led so far. -/
inductive Place where
  /-- A directory: the given one or, where `outside`, one around it. -/
  | directory (outside : Bool)
  | file (bytes : List UInt8)

def follow (d : Directory) : Place → List String → Except Refusal Place
  | place, [] => .ok place
  | .file _, _ :: _ => .error .notDirectory
  | .directory outside, part :: parts =>
    if part == "" || part == "." then d.follow (.directory outside) parts
    else if part == ".." then d.follow (.directory true) parts
    else if nameLimit < part.utf8ByteSize then .error .nameTooLong
    else if outside then .error .notFound
    else
      match d.find? (·.1 == part) with
      | some (_, bytes) => d.follow (.file bytes) parts
      | none => .error .notFound

/-- The bytes of the file at `path`. The empty path leads to the directory itself. -/
def read (d : Directory) (path : String) : Except Refusal (List UInt8) :=
  if path.toList.contains '\x00' then .error .nulInName
  else if pathLimit < path.utf8ByteSize then .error .nameTooLong
  else
    match d.follow (.directory (path.startsWith "/")) (path.splitOn "/") with
    | .error refusal => .error refusal
    | .ok (.directory _) => .error .isDirectory
    | .ok (.file bytes) => .ok bytes

end Directory
end Disasm6502

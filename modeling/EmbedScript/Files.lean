/-!
Paths and files. A disk is a tree of texts, or a list of answers for the paths that were asked so
far.
-/

namespace EmbedScript

namespace Path

/-- Goes on from `base` to `part`. An absolute part starts anew, and an empty one only marks the
path before it as a directory. -/
def push (base part : List Char) : List Char :=
  if part.head? == some '/' then part
  else if base.isEmpty || base.getLast? == some '/' then base ++ part
  else base ++ '/' :: part

def dropSlashes (cs : List Char) : List Char := (cs.reverse.dropWhile (· == '/')).reverse

def ofModule (path : String) : String :=
  let joined := (path.toList.splitOn '.').foldl push []
  let stem := dropSlashes joined
  String.ofList (if stem.isEmpty then joined else stem ++ ['.','p','y'])

def candidate (directory path : String) : String := String.ofList (push directory.toList (ofModule path).toList)

def parts (path : String) : List String :=
  ((path.toList.splitOn '/').map String.ofList).filter fun part => part != "" && part != "."

def parent? (path : String) : Option String :=
  let cs := dropSlashes path.toList
  if cs.isEmpty then none
  else
    let directory := (cs.reverse.dropWhile (· != '/')).reverse
    let trimmed := dropSlashes directory
    some (String.ofList (if trimmed.isEmpty then directory.take 1 else trimmed))

end Path

inductive ReadError where
  | notFound
  | notDirectory
  | isDirectory
  | nameTooLong
  | nulByte
  | other (message : String)
  deriving DecidableEq, Repr

def ReadError.message : ReadError → String
  | notFound => "No such file or directory (os error 2)"
  | notDirectory => "Not a directory (os error 20)"
  | isDirectory => "Is a directory (os error 21)"
  | nameTooLong => "File name too long (os error 36)"
  | nulByte => "file name contained an unexpected NUL byte"
  | other message => message

structure FileTree where
  files : List (List String × String) := []

namespace FileTree

def ofList (files : List (String × String)) : FileTree :=
  ⟨files.map fun (path,text) => (Path.parts path,text)⟩

def file? (t : FileTree) (place : List String) : Option String := t.files.lookup place

def isDirectory (t : FileTree) (place : List String) : Bool :=
  place.isEmpty || t.files.any fun (file,_) => place.length < file.length && place.isPrefixOf file

/-- `place` is the directory that the walk starts from, the innermost part first. -/
def walk (t : FileTree) (place : List String) : List String → Except ReadError (List String)
  | [] => .ok place.reverse
  | part :: rest =>
    if 255 < part.utf8ByteSize then .error .nameTooLong
    else
      let next := if part == ".." then place.tail else part :: place
      if t.isDirectory next.reverse then walk t next rest
      else if (t.file? next.reverse).isNone then .error .notFound
      else if rest.isEmpty then .ok next.reverse
      else .error .notDirectory

def read (t : FileTree) (path : String) : Except ReadError String := do
  if path.toList.contains '\x00' then throw .nulByte
  if path.isEmpty then throw .notFound
  if path.startsWith "/" then throw .notFound
  let place ← t.walk [] (Path.parts path)
  match t.file? place with
  | some text => if path.endsWith "/" || path.endsWith "/." then throw .notDirectory else return text
  | none => throw .isDirectory

end FileTree

inductive Disk where
  | tree (files : FileTree)
  | answers (known : List (String × Except ReadError String))

def Disk.read? : Disk → String → Option (Except ReadError String)
  | tree files, path => some (files.read path)
  | answers known, path => known.lookup path

inductive ModuleSource where
  | table (texts : List (String × String))
  | files (search : List String)

end EmbedScript

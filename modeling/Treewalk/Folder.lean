/-!
# Folders

A folder that holds files and empty folders by name, and the way a relative
path leads to one of its files.
-/

namespace Treewalk

/-- What a folder holds under a name. -/
inductive Entry where
  | file (bytes : ByteArray)
  | folder

/-- A folder. -/
structure Folder where
  entries : List (String × Entry) := []

namespace Folder

/-- Where a path has led so far. -/
inductive Place where
  /-- The folder itself. -/
  | here
  /-- One of the folders in it. -/
  | within
  | file (bytes : ByteArray)

/-- One step of a path. Nothing lies behind a file, and the way out of the
folder is closed. -/
def step (f : Folder) : Place → String → Option Place
  | .file _, _ => none
  | place, "" => some place
  | place, "." => some place
  | .here, ".." => none
  | .within, ".." => some .here
  | .within, _ => none
  | .here, name =>
    match f.entries.lookup name with
    | some (.file bytes) => some (.file bytes)
    | some .folder => some .within
    | none => none

/-- The contents of the file that a path leads to. -/
def open? (f : Folder) (path : String) : Option ByteArray :=
  if path.isEmpty || path.toList.head? = some '/' then none
  else
    match (path.splitOn "/").foldlM f.step .here with
    | some (.file bytes) => some bytes
    | _ => none

end Folder

end Treewalk

import I8086.Command

/-! # File systems in memory: how a path is followed, and a host for the command that is a value -/

namespace I8086

abbrev Path := List String

inductive Entry
  | directory
  | file (bytes : ByteArray)
  | null

structure FileSystem where
  entries : List (Path × Entry)
  current : Path

namespace FileSystem

def maxName : Nat := 255

def maxPath : Nat := 4095

def standard : List (Path × Entry) :=
  ["bin", "boot", "dev", "etc", "home", "lib", "media", "mnt", "opt", "proc", "root", "run", "sbin", "srv", "sys",
    "tmp", "usr", "var"].map (fun name => ([name], .directory)) ++ [(["dev", "null"], .null)]

def ofFiles (files : List (String × ByteArray)) : FileSystem where
  entries := standard ++ [(["tmp", "current"], .directory)] ++
    files.map fun (name, bytes) => (["tmp", "current", name], .file bytes)
  current := ["tmp", "current"]

def entry? (s : FileSystem) (p : Path) : Option Entry :=
  if p.isEmpty then some .directory else s.entries.lookup p

def put (s : FileSystem) (p : Path) (e : Entry) : FileSystem :=
  { s with entries := s.entries.filter (·.1 != p) ++ [(p, e)] }

def files (s : FileSystem) : List (String × ByteArray) :=
  s.entries.filterMap fun
    | (p, .file bytes) => if p.dropLast = s.current then p.getLast?.map (·, bytes) else none
    | _ => none

/-- Follows names from a place. Each starts from a directory; an empty name and a dot stay there, two dots go up, and
nothing is above the root. The last name may be new. -/
def follow (s : FileSystem) (place : Path) : List String → Except FileError Path
  | [] => .ok place
  | name :: rest =>
    match s.entry? place with
    | none => .error .missing
    | some .directory =>
      if name = "" ∨ name = "." then s.follow place rest
      else if name = ".." then s.follow place.dropLast rest
      else if maxName < name.utf8ByteSize then .error .nameTooLong
      else s.follow (place ++ [name]) rest
    | some _ => .error .notDirectory

def split (s : FileSystem) (path : String) : Except FileError (Path × List String) :=
  if maxPath < path.utf8ByteSize then .error .nameTooLong
  else
    let names := path.splitOn "/"
    .ok (if names.head? = some "" then [] else s.current, names)

def read (s : FileSystem) (path : String) : Except FileError ByteArray := do
  let (place, names) ← s.split path
  match s.entry? (← s.follow place names) with
  | none => .error .missing
  | some .directory => .error .isDirectory
  | some (.file bytes) => return bytes
  | some .null => return .empty

/-- A file with these bytes at a path, in place of one that is there. A path that ends in a slash names a directory,
even where nothing is; it must still be in a directory. -/
def write (s : FileSystem) (path : String) (bytes : ByteArray) : Except FileError FileSystem := do
  let (place, names) ← s.split path
  match names.reverse.dropWhile (· = "") with
  | [] => .error .isDirectory
  | name :: above =>
    let place ← s.follow place (above.reverse ++ [""])
    if name = "." ∨ name = ".." ∨ names.getLast? = some "" then .error .isDirectory
    else
      let place ← s.follow place [name]
      match s.entry? place with
      | some .directory => .error .isDirectory
      | some .null => return s
      | some (.file _) | none => return s.put place (.file bytes)

def host : Host (StateM (FileSystem × String)) where
  readFile path := return ((← get).1.read path).map fun bytes => bytes.data.map UInt8.toBitVec
  createFile path := fill path .empty
  writeFile path bytes := fill path bytes
  print text := modify fun (s, printed) => (s, printed ++ text)
  note _ := pure ()
where
  fill (path : String) (bytes : ByteArray) : StateM (FileSystem × String) (Except FileError Unit) := do
    match (← get).1.write path bytes with
    | .error e => return .error e
    | .ok s =>
      modify fun (_, printed) => (s, printed)
      return .ok ()

end FileSystem

end I8086

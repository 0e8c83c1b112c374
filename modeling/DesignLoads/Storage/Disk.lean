import DesignLoads.Failure
import DesignLoads.NameMap
import DesignLoads.Storage.Path
import DesignLoads.Unicode.WhiteSpace

/-! Disks: files and directories by their places. -/

namespace DesignLoads

inductive Entry where
  | file (content : ByteArray)
  | directory

/-- The reason why an operation on a path is not possible. -/
inductive Obstacle where
  | missing
  | notDirectory
  | isDirectory
  | nameTooLong
  | busy
  | nulInName
  | notText
  | other (reason : String)
deriving DecidableEq

def Obstacle.reason : Obstacle → String
  | missing => "No such file or directory (os error 2)"
  | notDirectory => "Not a directory (os error 20)"
  | isDirectory => "Is a directory (os error 21)"
  | nameTooLong => "File name too long (os error 36)"
  | busy => "Device or resource busy (os error 16)"
  | nulInName => "file name contained an unexpected NUL byte"
  | notText => "stream did not contain valid UTF-8"
  | other reason => reason

/-- The names on the way from the root to a place. -/
abbrev Place := List (List Char)

/-- A place as one text. -/
def Place.key (place : Place) : String := String.ofList (List.intercalate ['/'] place)

/-- Files and directories by place. The root is a directory. -/
structure Disk where
  entries : NameMap Entry

namespace Disk

def empty : Disk := ⟨.empty⟩

def entry? (d : Disk) (place : Place) : Option Entry :=
  if place.isEmpty then some .directory else d.entries.get? place.key

/-- The place one name further on. -/
def step (place : Place) (name : List Char) : Place :=
  if name = Path.up then place.dropLast else place ++ [name]

/-- The place that names lead to. There has to be a directory on every step before the last. -/
def walk (d : Disk) (place : Place) : List (List Char) → Except Obstacle Place
  | [] => .ok place
  | [name] => if 255 < Unicode.byteLength name then .error .nameTooLong else .ok (step place name)
  | name :: names =>
    if 255 < Unicode.byteLength name then .error .nameTooLong
    else match d.entry? (step place name) with
      | some .directory => d.walk (step place name) names
      | some (.file _) => .error .notDirectory
      | none => .error .missing

def locate (d : Disk) (p : Path) : Except Obstacle Place :=
  if p.chars.contains '\x00' then .error .nulInName
  else if p.chars.isEmpty then .error .missing
  else if 4096 ≤ Unicode.byteLength p.chars then .error .nameTooLong
  else d.walk [] p.names

def put (d : Disk) (place : Place) (e : Entry) : Disk := ⟨d.entries.insert place.key e⟩

def read (d : Disk) (p : Path) : Except Obstacle ByteArray := do
  let place ← d.locate p
  match d.entry? place with
  | some (.file content) => if p.endsInSlash then .error .notDirectory else .ok content
  | some .directory => .error .isDirectory
  | none => .error .missing

def readText (d : Disk) (p : Path) : Except Failure String :=
  match d.read p with
  | .ok content =>
    match String.fromUTF8? content with
    | some text => .ok text
    | none => .error (.file "read" p.text Obstacle.notText.reason)
  | .error o => .error (.file "read" p.text o.reason)

/-- Writes a file, new or in place of what it held before. -/
def write (d : Disk) (p : Path) (content : ByteArray) : Except Obstacle Disk := do
  let place ← d.locate p
  match d.entry? place with
  | some .directory => .error .isDirectory
  | _ => if p.endsInSlash then .error .isDirectory else .ok (d.put place (.file content))

def remove (d : Disk) (p : Path) : Except Obstacle Disk := do
  let place ← d.locate p
  match d.entry? place with
  | some (.file _) => .ok ⟨d.entries.erase place.key⟩
  | some .directory => .error .isDirectory
  | none => .error .missing

/-- Why no file can be moved to a path that ends in a point and leads to `e`. -/
def pointObstacle : Option Entry → Obstacle
  | some .directory => .busy
  | some (.file _) => .notDirectory
  | none => .missing

/-- Moves a file to another path, in place of a file that was there. -/
def rename (d : Disk) (p q : Path) : Except Obstacle Disk := do
  let source ← d.locate p
  let target ← d.locate q
  match d.entry? source, d.entry? target with
  | none, _ => .error .missing
  | some .directory, _ => .error .isDirectory
  | some (.file content), e =>
    if q.endsInPoint then .error (pointObstacle e)
    else if q.endsInSlash then .error .notDirectory
    else match e with
      | some .directory => .error .isDirectory
      | _ => .ok (put ⟨d.entries.erase source.key⟩ target (.file content))

/-- Makes the directories on a way, and says where it ends. -/
def makeWay (d : Disk) (place : Place) : List (List Char) → Place × Disk
  | [] => (place, d)
  | name :: names =>
    let place := step place name
    makeWay (if place.isEmpty then d else d.put place .directory) place names

/-- Makes a directory and those on the way to it. -/
def makeDirectory (d : Disk) (p : Path) : Disk := (d.makeWay [] p.names).2

/-- Writes a file and makes the directories on the way to it. -/
def provide (d : Disk) (p : Path) (content : ByteArray) : Disk :=
  let (place, d) := d.makeWay [] p.names.dropLast
  d.put (p.names.drop (p.names.length - 1) |>.foldl step place) (.file content)

/-- The keys of all entries in increasing order; those of directories end in a slash. -/
def list (d : Disk) : List String :=
  (d.entries.entries.map fun (key, e) => match e with
    | .file _ => key
    | .directory => key ++ "/").mergeSort (· ≤ ·)

end Disk

end DesignLoads

import DesignLoads.Unicode.WhiteSpace

/-! Paths: names separated by slashes. They are Unicode texts: a path whose bytes are no text in
UTF-8, whose extension would be replaced in part when it is written out, is not among them. -/

namespace DesignLoads

structure Path where
  chars : List Char
deriving DecidableEq

namespace Path

def ofString (text : String) : Path := ⟨text.toList⟩

def text (p : Path) : String := String.ofList p.chars

/-- The names that a path is made of. An empty name and a single point lead nowhere else. -/
def names (p : Path) : List (List Char) :=
  (splitAtEach '/' p.chars).filter fun n => n ≠ [] && n ≠ ['.']

/-- The name that leads one directory up. -/
def up : List Char := ['.', '.']

/-- The name of the file: the last name, unless it leads up. -/
def fileName? (p : Path) : Option (List Char) := p.names.getLast?.filter (· ≠ up)

/-- A name up to its last point, and what is behind it. A point at the head does not count. -/
def splitName (name : List Char) : List Char × Option (List Char) :=
  let behind := name.reverse.takeWhile (· ≠ '.')
  match name.reverse.dropWhile (· ≠ '.') with
  | _ :: c :: stem => ((c :: stem).reverse, some behind.reverse)
  | _ => (name, none)

def stem (p : Path) : List Char := ((p.fileName?.map splitName).map (·.1)).getD []

def extension? (p : Path) : Option (List Char) := (p.fileName?.map splitName).bind (·.2)

/-- A text, backwards, without the slashes at its end and the points that lead nowhere. -/
def dropSlashes : List Char → List Char
  | '/' :: r => dropSlashes r
  | '.' :: '/' :: r => dropSlashes r
  | r => r

def upToName (p : Path) : List Char := (dropSlashes p.chars.reverse).reverse

/-- Whether the path can only be that of a directory. -/
def endsInSlash (p : Path) : Bool := p.upToName ≠ p.chars

/-- Whether the last of the names is written as a single point. -/
def endsInPoint (p : Path) : Bool :=
  ((splitAtEach '/' p.chars).filter (· ≠ [])).getLast? = some ['.']

def upToStem (p : Path) : List Char :=
  p.upToName.take (p.upToName.length - ((p.fileName?.getD []).length - p.stem.length))

/-- The path with another extension of the name of its file. Without such a name it stays as it
is. -/
def setExtension (p : Path) (extension : List Char) : Path :=
  if p.fileName?.isNone then p else ⟨p.upToStem ++ '.' :: extension⟩

/-- The path with another extension, made from a copy that lacks as many characters at its end as the
old extension has. A copy that ends in two points names no file, and is left as it is. -/
def withExtension (p : Path) (extension : List Char) : Path :=
  setExtension ⟨p.chars.take (p.chars.length - (p.extension?.getD []).length)⟩ extension

/-- The path of the file that is written first when a file is saved: the name of the file has one
more extension. -/
def temporary (p : Path) : Path :=
  p.withExtension <| match p.extension? with
    | some e => e ++ ['.', 't', 'm', 'p']
    | none => ['t', 'm', 'p']

end Path

end DesignLoads

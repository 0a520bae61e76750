/-
Files, as far as a run needs them.

* `FileFault` — why a file cannot be read or written
* `Files` — how a run reads and writes files, in any monad
* `Directory` — files held in memory, for runs that leave nothing behind
-/
import ContractBasic.OrderedMap

namespace ContractBasic

/-- Why a file cannot be read or written. -/
inductive FileFault where
  | notFound
  | isDirectory
  | notDirectory
  /-- A name, or the whole path, is longer than may be. -/
  | nameTooLong
  /-- The bytes are not the UTF-8 form of a text. -/
  | notText
  | other (text : String)
deriving DecidableEq, Repr

/-- The words for a fault. -/
def FileFault.message : FileFault → String
  | notFound => "No such file or directory (os error 2)"
  | isDirectory => "Is a directory (os error 21)"
  | notDirectory => "Not a directory (os error 20)"
  | nameTooLong => "File name too long (os error 36)"
  | notText => "stream did not contain valid UTF-8"
  | other text => text

/-- How files are read and written. -/
structure Files (m : Type → Type) where
  read : String → m (Except FileFault String)
  write : String → String → m (Except FileFault Unit)

/-! ### Files in memory -/

/-- The files below a directory, by their paths from it. -/
abbrev Directory := OrderedMap ByteArray

namespace Directory

/-- The key of a place, which is a row of names. -/
def key (place : List String) : String := String.intercalate "/" place

/-- The root of all files. -/
def root : List String := ["/"]

/-- The directory above, of which nothing else is known. -/
def above : List String := [".."]

/-- The device that is empty and keeps nothing that is written to it. -/
def nullDevice : List String := ["/", "dev", "null"]

/-- The directories that are known beside those where files are. -/
def known : List (List String) := [[], above, root, ["/", "dev"], ["/", "tmp"]]

/-- Whether a place is a directory. -/
def isDirectory (d : Directory) (place : List String) : Bool :=
  known.contains place ||
    d.keys.any fun k => place.isPrefixOf (k.splitOn "/") && k.splitOn "/" != place

/-- The directory that holds a place. -/
def parent (place : List String) : List String :=
  if place = root then root
  else if place = [] ∨ place = above then above
  else place.dropLast

/-- The most bytes that a name may have. -/
def maxName : Nat := 255

/-- The place that a name leads to from another place. -/
def step (d : Directory) (place : List String) (name : String) : Except FileFault (List String) :=
  if d.isDirectory place then
    if name = "" ∨ name = "." then .ok place
    else if name = ".." then .ok (parent place)
    else if maxName < name.utf8ByteSize then .error .nameTooLong
    else .ok (place ++ [name])
  else if place = nullDevice ∨ (d.get? (key place)).isSome then
    .error .notDirectory
  else
    .error .notFound

/-- The place that a row of names leads to. -/
def find (d : Directory) : List String → Except FileFault (List String)
  | "" :: names => names.foldlM d.step root
  | names => names.foldlM d.step []

/-- The most bytes that a path may have. -/
def maxPath : Nat := 4095

/-- The names in a path. -/
def names (path : String) : Except FileFault (List String) :=
  if maxPath < path.utf8ByteSize then .error .nameTooLong else .ok (path.splitOn "/")

/-- The text of a file. -/
def readText (d : Directory) (path : String) : Except FileFault String := do
  let place ← d.find (← names path)
  if d.isDirectory place then
    .error .isDirectory
  else if place = nullDevice then
    .ok ""
  else
    match d.get? (key place) with
    | none => .error .notFound
    | some bytes =>
      match String.fromUTF8? bytes with
      | some text => .ok text
      | none => .error .notText

/-- The directory with a text in a file, new or not.  A path that ends with a slash can only be that
of a directory, whatever its last name is. -/
def writeText (d : Directory) (path text : String) : Except FileFault Directory := do
  let names ← names path
  let proper := (names.reverse.dropWhile (· = "")).reverse
  if proper ≠ names then
    let _ ← d.find (proper.dropLast ++ ["."])
    .error .isDirectory
  else
    let place ← d.find proper
    if d.isDirectory place then .error .isDirectory
    else if place = nullDevice then .ok d
    else if above.isPrefixOf place ∨ root.isPrefixOf place then .error .notFound
    else .ok (d.insert (key place) text.toUTF8)

/-- Reading and writing in a directory that the run carries along. -/
def files : Files (StateM Directory) where
  read p := do
    let d ← get
    pure (d.readText p)
  write p text := do
    let d ← get
    match d.writeText p text with
    | .ok d => do
      set d
      pure (.ok ())
    | .error fault => pure (.error fault)

end Directory

end ContractBasic

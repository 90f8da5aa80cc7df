import RegisterMap.Table
import RegisterMap.Text.Cut

/-! # A folder of text files

All reading and writing of files is done on a value: the texts by their paths, and the folders that
exist.  They are kept by the plain form of their paths, so that `./a` and `a` name one file.
`Files.locate` follows a path through the folders to what it leads to. -/

namespace RegisterMap.Source

open Text

/-- The parts of a path without `.` and without what `..` takes back. -/
def plainParts : List String → List String → List String
  | done, [] => done.reverse
  | done, p :: ps =>
    if p == "" || p == "." then plainParts done ps
    else if p == ".." then
      match done with
      | [] => plainParts [".."] ps
      | d :: ds => if d == ".." then plainParts (".." :: done) ps else plainParts ds ps
    else plainParts (p :: done) ps

/-- A path without detours. -/
def plainPath (path : String) : String :=
  (if startsWith path "/" then "/" else "") ++ join "/" (plainParts [] (split '/' path))

/-- A path below a folder; an absolute path stands for itself. -/
def joinPath (folder path : String) : String :=
  if startsWith path "/" || folder.isEmpty then path
  else if folder.toList.getLast? == some '/' then folder ++ path
  else folder ++ "/" ++ path

def foldersAbove (path : String) : List String :=
  let parts := split '/' path
  (List.range (parts.length - 1)).map fun n => join "/" (parts.take (n + 1))

/-- Name and ending of a path, from the last point of the last part on. -/
def splitEnding (path : String) : String × String :=
  let rev := path.toList.reverse
  let tail := rev.takeWhile fun c => c != '.' && c != '/'
  match rev.drop tail.length with
  | '.' :: rest =>
    let stem := rest.takeWhile (· != '/')
    if stem.all (· == '.') then (path, "")
    else (String.ofList rest.reverse, String.ofList ('.' :: tail.reverse))
  | _ => (path, "")

/-- Files by their plain paths, and folders. -/
structure Files where
  texts : Table String String := []
  folders : List String := []
deriving Repr, Inhabited

namespace Files

def ofPaths (texts : List (String × String)) (folders : List String) : Files :=
  let folders := folders.map plainPath
  { texts := texts.map fun (path, text) => (plainPath path, text)
    folders := folders ++ folders.flatMap foldersAbove }

/-- Is there a folder at a path? -/
def isFolder (fs : Files) (path : String) : Bool :=
  let path := plainPath path
  path == "" || path == "/" || fs.folders.contains path ||
    fs.texts.any fun entry => (foldersAbove entry.1).contains path

/-- What a path leads to. -/
inductive Target where
  | file (path text : String)
  | folder
  /-- Nothing so far, in a folder that is there. -/
  | vacant (path : String)
deriving DecidableEq, Repr, Inhabited

def longestName : Nat := 255

def longestPath : Nat := 4095

/-- One folder up. -/
def outward (inside : List String) : List String :=
  if inside.getLast?.getD ".." == ".." then inside ++ [".."] else inside.dropLast

/-- Follow the parts of a path through folders. -/
def follow (fs : Files) (start : String) : (inside : List String) → List String → Except Fault Target
  | _, [] => .ok .folder
  | inside, p :: ps =>
    if p == "" || p == "." then follow fs start inside ps
    else if p == ".." then follow fs start (outward inside) ps
    else
      let inside := inside ++ [p]
      let path := start ++ join "/" inside
      if longestName < p.utf8ByteSize then .error .pathTooLong
      else
        match Table.get? fs.texts path with
        | some text => if ps.isEmpty then .ok (.file path text) else .error .notAFolder
        | none =>
          if fs.isFolder path then follow fs start inside ps
          else if ps.isEmpty then .ok (.vacant path)
          else .error .fileNotFound

/-- What a well-formed path leads to. -/
def locate (fs : Files) (path : String) : Except Fault Target :=
  if path.isEmpty then .error .fileNotFound
  else if hasChar path (Char.ofNat 0) then .error .badValue
  else if longestPath < path.utf8ByteSize then .error .pathTooLong
  else fs.follow (if startsWith path "/" then "/" else "") [] (split '/' path)

/-- Does a path lead anywhere? -/
def has (fs : Files) (path : String) : Bool :=
  match fs.locate path with
  | .ok (.file _ _) | .ok .folder => true
  | _ => false

/-- The text of a file, if there is one. -/
def text? (fs : Files) (path : String) : Result (Option String) :=
  match fs.locate path with
  | .ok (.file _ text) => .ok (some text)
  | .error .badValue => fail .badValue
  | _ => .ok none

/-- The text of a file, with its line ends made alike. -/
def read (fs : Files) (path : String) : Result String :=
  match fs.locate path with
  | .ok (.file _ text) => .ok (String.ofList (unifyLineEnds text.toList))
  | .ok .folder => fail .isAFolder
  | .ok (.vacant _) => fail .fileNotFound
  | .error f => fail f

/-- Change the text of a file in a folder, empty if it is new. -/
def edit (fs : Files) (path : String) (change : String → String) : Result Files :=
  let name := path.toList.reverse.dropWhile (· == '/')
  match fs.locate (String.ofList name.reverse) with
  | .error f => fail f
  | .ok .folder => fail .isAFolder
  | .ok (.file plain text) => put plain text
  | .ok (.vacant plain) => put plain ""
where
  /-- Keep the changed text, unless the path is that of a folder. -/
  put (plain text : String) : Result Files :=
    if path.toList.getLast? == some '/' then fail .isAFolder
    else .ok { fs with texts := Table.put fs.texts plain (change text) }

def write (fs : Files) (path text : String) : Result Files := fs.edit path fun _ => text

def append (fs : Files) (path text : String) : Result Files := fs.edit path (· ++ text)

/-- The files that are new or changed. -/
def changesSince (fs before : Files) : List (String × String) :=
  (fs.texts.filter fun entry => Table.get? before.texts entry.1 != some entry.2).mergeSort
    fun a b => decide (a.1 ≤ b.1)

end Files

end RegisterMap.Source

import UnitDispatch.FileSystem

/-! # Folders

A file system of one folder, to carry out a command line in without a system. There are no folders
within it; those around it are there, and hold nothing but what the program has written. It never
runs full.
-/

namespace UnitDispatch

/-- Why a file cannot be reached. -/
inductive FileError where
  | notFound
  | notAFolder
  | isAFolder
  | nameTooLong
  /-- The path has a character of number zero in it, which is not even looked up. -/
  | zeroInPath
  deriving DecidableEq, Repr

namespace FileError

def all : List FileError := [notFound, notAFolder, isAFolder, nameTooLong, zeroInPath]

/-- The number that the system gives a file error, if it gets to see it. -/
def number? : FileError → Option Nat
  | notFound => some 2
  | notAFolder => some 20
  | isAFolder => some 21
  | nameTooLong => some 36
  | zeroInPath => none

/-- The file error of a number. -/
def ofNumber? (n : Nat) : Option FileError := all.find? (·.number? == some n)

/-- A reason with the number that the system gives it. -/
def numbered (reason : String) (n : Nat) : String :=
  reason ++ " (os error " ++ toString n ++ ")"

/-- The reason of a file error. -/
def reason : FileError → String
  | notFound => "No such file or directory"
  | notAFolder => "Not a directory"
  | isAFolder => "Is a directory"
  | nameTooLong => "File name too long"
  | zeroInPath => "file name contained an unexpected NUL byte"

/-- The text of a file error. -/
def text (e : FileError) : String :=
  match e.number? with
  | some n => numbered e.reason n
  | none => e.reason

theorem ofNumber?_of_number? {e : FileError} {n : Nat} (h : e.number? = some n) :
    ofNumber? n = some e := by
  cases e <;> cases h <;> rfl

end FileError

/-- Files by name; the name of one in a folder around this one begins with the way there. -/
structure Folder where
  files : List (String × ByteArray) := []

namespace Folder

def find? (f : Folder) (name : String) : Option ByteArray := f.files.lookup name

/-! ## Paths -/

/-- Where a path leads. -/
inductive Place where
  | folder
  /-- To a file, if there is one of this name in the folder that `way` leads to. -/
  | file (way name : String)
  /-- To a file as if it were a folder, with nothing but slashes behind its name. -/
  | asFolder (way name : String)
  /-- Into a file as if it were a folder. -/
  | within (way name : String)
  deriving DecidableEq, Repr

/-- Follows the parts of a path from the folder that `way` leads to. An empty part and a single dot
stay there, two dots lead to the folder around it, and behind any other part the path can only end:
no folder of a name is there. -/
def follow (way : String) : List String → Place
  | [] => .folder
  | part :: rest =>
    if part == "" || part == "." then follow way rest
    else if part == ".." then follow (if way == "/" then way else way ++ "../") rest
    else if rest.isEmpty then .file way part
    else if rest.all (· == "") then .asFolder way part
    else .within way part

/-- The most bytes that a path may have. -/
def pathLimit : Nat := 4095

/-- The most bytes that the name of a file may have. -/
def nameLimit : Nat := 255

/-- Finds out where a path leads. -/
def locate (path : String) : Except FileError Place :=
  if path.contains '\x00' then .error .zeroInPath
  else if path == "" then .error .notFound
  else if pathLimit < path.utf8ByteSize then .error .nameTooLong
  else .ok (follow (if path.startsWith "/" then "/" else "") (path.splitOn "/"))

/-! ## Reading and writing -/

/-- Looks for a file. -/
def lookUp (f : Folder) (way name : String) : Except FileError ByteArray :=
  if nameLimit < name.utf8ByteSize then .error .nameTooLong
  else match f.find? (way ++ name) with
    | some content => .ok content
    | none => .error .notFound

/-- Looks for a file where a folder would be needed. -/
def enter {β : Type} (f : Folder) (way name : String) : Except FileError β :=
  f.lookUp way name >>= fun _ => .error .notAFolder

/-- Puts a file in the place of one of its name. -/
def put (f : Folder) (way name : String) (content : ByteArray) : Except FileError Folder :=
  let whole := way ++ name
  if nameLimit < name.utf8ByteSize then .error .nameTooLong
  else .ok { files := (whole, content) :: f.files.filter (·.1 != whole) }

/-- Reads a file. -/
def read (f : Folder) (path : String) : Except FileError ByteArray :=
  locate path >>= fun
    | .folder => .error .isAFolder
    | .file way name => f.lookUp way name
    | .asFolder way name | .within way name => f.enter way name

/-- Writes a file. A name with slashes behind it is taken for that of a folder unseen. -/
def write (f : Folder) (path : String) (content : ByteArray) : Except FileError Folder :=
  locate path >>= fun
    | .folder | .asFolder _ _ => .error .isAFolder
    | .file way name => f.put way name content
    | .within way name => f.enter way name

/-- What an attempt to change a folder leaves. -/
def attempt (f : Folder) : Except FileError Folder → Except String Unit × Folder
  | .ok changed => (.ok (), changed)
  | .error e => (.error e.text, f)

/-- A folder as a file system. -/
def fileSystem : FileSystem Folder where
  read f path := (f.read path).mapError FileError.text
  create f path := f.attempt (f.write path .empty)
  append f path bytes := f.attempt (f.read path >>= fun held => f.write path (held ++ bytes))

theorem lookUp_put {f g : Folder} {way name : String} {content : ByteArray}
    (h : f.put way name content = .ok g) : g.lookUp way name = .ok content := by
  unfold put at h
  unfold lookUp
  split at h
  · cases h
  · next short =>
    cases h
    simp [short, find?]

theorem enter_ne_ok {β : Type} (f : Folder) (way name : String) (x : β) :
    f.enter way name ≠ .ok x := by
  unfold enter
  cases f.lookUp way name <;> nofun

/-- A file reads as it was written. -/
theorem read_write {f g : Folder} {path : String} {content : ByteArray}
    (h : f.write path content = .ok g) : g.read path = .ok content := by
  unfold write at h
  unfold read
  cases place : locate path with
  | error e =>
    rw [place] at h
    cases h
  | ok p =>
    rw [place] at h
    cases p with
    | folder => cases h
    | asFolder way name => cases h
    | within way name => exact absurd h (enter_ne_ok f way name g)
    | file way name => exact lookUp_put h

theorem of_attempt {f g : Folder} {outcome : Except FileError Folder}
    (h : f.attempt outcome = (.ok (), g)) : outcome = .ok g := by
  cases outcome with
  | ok changed => exact congrArg Except.ok (congrArg Prod.snd h)
  | error e => cases congrArg Prod.fst h

theorem of_attempt_error {f g : Folder} {outcome : Except FileError Folder} {reason : String}
    (h : f.attempt outcome = (.error reason, g)) : g = f := by
  cases outcome with
  | ok changed => cases congrArg Prod.fst h
  | error e => exact (congrArg Prod.snd h).symm

/-- A folder keeps what is written. -/
theorem keeps (f : Folder) (path : String) : fileSystem.Keeps f path where
  untouched := of_attempt_error
  emptied := by
    intro left made
    have read := read_write (of_attempt made)
    show (left.read path).mapError FileError.text = _
    rw [read]
    rfl
  extended := by
    intro left after before bytes _ held written
    have written := of_attempt written
    change (left.read path).mapError FileError.text = .ok before at held
    cases content : left.read path with
    | error e =>
      rw [content] at held
      cases held
    | ok now =>
      rw [content] at held written
      cases held
      show (after.read path).mapError FileError.text = _
      rw [read_write written]
      rfl

/-- A text can be saved where a path leads to a file with a name that is not too long. -/
theorem save_of_file {path way name : String} (place : locate path = .ok (.file way name))
    (short : name.utf8ByteSize ≤ nameLimit) (f : Folder) (text : String) :
    (fileSystem.save f path text).1 = .ok () := by
  have write (f : Folder) (content : ByteArray) : ∃ g, f.write path content = .ok g := by
    rw [write, place]
    exact ⟨_, if_neg (Nat.not_lt.mpr short)⟩
  obtain ⟨made, create⟩ := write f .empty
  obtain ⟨full, append⟩ := write made (.empty ++ text.toUTF8)
  have created : fileSystem.create f path = (.ok (), made) := congrArg f.attempt create
  have appended : fileSystem.append made path text.toUTF8 = (.ok (), full) := by
    show made.attempt (made.read path >>= _) = _
    rw [read_write create]
    exact congrArg made.attempt append
  rw [FileSystem.save_of_made created, appended]

/-- Nothing can be saved within what is not there. -/
theorem save_of_within {path way name : String} (place : locate path = .ok (.within way name))
    {f : Folder} (absent : f.lookUp way name = .error .notFound) (text : String) :
    fileSystem.save f path text = (.error FileError.notFound.text, f) := by
  have created : fileSystem.create f path = (.error FileError.notFound.text, f) := by
    show f.attempt (f.write path .empty) = _
    rw [write, place]
    show f.attempt (f.enter way name) = _
    rw [enter, absent]
    rfl
  exact FileSystem.save_of_unmade created text

end Folder

end UnitDispatch

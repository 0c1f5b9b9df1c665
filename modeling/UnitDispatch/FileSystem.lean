/-! # File systems

What a program asks of the files around it. How they are kept is up to the system it runs on, and so
is what becomes of a file when something goes wrong on the way.
-/

namespace UnitDispatch

/-- Files that are reached by paths, given what there is. What goes wrong has a text. -/
structure FileSystem (σ : Type) where
  /-- The content of a file. -/
  read : σ → String → Except String ByteArray
  /-- Makes an empty file, in the place of one that is there. -/
  create : σ → String → Except String Unit × σ
  /-- Writes behind what a file holds. -/
  append : σ → String → ByteArray → Except String Unit × σ

namespace FileSystem

variable {σ : Type}

/-- Makes a file and writes a text into it. What is done by the time that something goes wrong is
not undone. -/
def save (fs : FileSystem σ) (files : σ) (path text : String) : Except String Unit × σ :=
  match fs.create files path with
  | (.error reason, files) => (.error reason, files)
  | (.ok (), files) => fs.append files path text.toUTF8

variable {fs : FileSystem σ} {files left : σ} {path reason : String}

theorem save_of_unmade (unmade : fs.create files path = (.error reason, left)) (text : String) :
    fs.save files path text = (.error reason, left) := by
  rw [save, unmade]

theorem save_of_made (made : fs.create files path = (.ok (), left)) (text : String) :
    fs.save files path text = fs.append left path text.toUTF8 := by
  rw [save, made]

/-- A path keeps what is written to it, as that of a plain file does and that of a terminal does
not. -/
structure Keeps (fs : FileSystem σ) (files : σ) (path : String) : Prop where
  /-- Nothing comes of a file that cannot be made. -/
  untouched : ∀ {reason left}, fs.create files path = (.error reason, left) → left = files
  /-- One that is made is empty. -/
  emptied : ∀ {left}, fs.create files path = (.ok (), left) → fs.read left path = .ok .empty
  /-- What is written stands behind what it held. -/
  extended : ∀ {left after before bytes}, fs.create files path = (.ok (), left) →
    fs.read left path = .ok before → fs.append left path bytes = (.ok (), after) →
      fs.read after path = .ok (before ++ bytes)

/-- A text that is saved where it is kept can be read there. -/
theorem Keeps.read_save {text : String} (keeps : fs.Keeps files path)
    (saved : fs.save files path text = (.ok (), left)) : fs.read left path = .ok text.toUTF8 := by
  cases made : fs.create files path with
  | mk outcome new =>
    cases outcome with
    | error reason =>
      rw [save_of_unmade made] at saved
      cases congrArg Prod.fst saved
    | ok =>
      rw [save_of_made made] at saved
      have held := keeps.extended made (keeps.emptied made) saved
      rwa [ByteArray.empty_append] at held

end FileSystem

end UnitDispatch

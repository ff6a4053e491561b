import Nomenclator.OrderedMap.Basic
import Nomenclator.Settings.Writer

/-!
# Files of settings

A folder without folders inside it, from which settings are loaded and in which
they are saved.

Specification: `SPEC_FULL.md` §10, configuration.
-/

namespace Nomenclator

/-- A folder of files. -/
structure Folder where
  /-- How many bytes a path inside the folder may have, which depends on where the folder
      lies. -/
  pathLimit : Nat
  /-- The contents of files by their names. -/
  files : OrderedMap String (List UInt8) := .empty

namespace Folder

/-- The parts of a path between its slashes. -/
def pathParts : List Char → List (List Char)
  | [] => [[]]
  | c :: rest =>
    if c = '/' then [] :: pathParts rest
    else
      match pathParts rest with
      | [] => [[c]]
      | part :: others => (c :: part) :: others

/-- A part of a path that stays where it is. -/
def isIdle (part : List Char) : Bool := part = [] || part = ['.']

/-- A part of a path can be the name of a file. -/
def isFileName (part : List Char) : Bool :=
  part ≠ ['.', '.'] && part.all (·.toNat ≠ 0) && (String.ofList part).utf8ByteSize ≤ 255

/-- The path starts inside the folder and is not too long. -/
def isInside (folder : Folder) (path : String) : Bool :=
  path.toList.head? ≠ some '/' && path.utf8ByteSize ≤ folder.pathLimit

/-- The file of the folder that a path names. Its last part has to be the name
    of the file, and all others have to stay in the folder. -/
def fileName? (folder : Folder) (path : String) : Option String :=
  match (pathParts path.toList).reverse with
  | [] => none
  | name :: lead =>
    if folder.isInside path && !isIdle name && isFileName name && lead.all isIdle then
      some (String.ofList name)
    else none

/-- The content of a file. -/
def read? (folder : Folder) (path : String) : Option (List UInt8) :=
  (folder.fileName? path).bind folder.files.find?

/-- The folder with a new content of a file, unless the path names none. -/
def write? (folder : Folder) (path : String) (content : List UInt8) : Option Folder :=
  (folder.fileName? path).map fun name =>
    { folder with files := folder.files.insert name content }

end Folder

namespace Settings

/-- The settings that the bytes of a file give. -/
def ofBytes (bytes : List UInt8) : Except SettingsError Settings :=
  match String.fromUTF8? ⟨bytes.toArray⟩ with
  | some text => ofText text
  | none => .error .unreadable

/-- The settings that a file gives (`load_from_path`, §10). -/
def load (folder : Folder) (path : String) : Except SettingsError Settings :=
  match folder.read? path with
  | some bytes => ofBytes bytes
  | none => .error .unreadable

/-- The folder with the settings in a file (`save_to_path`, §10), if the writer refuses no
    text in them. -/
def save (refuses : String → Bool) (settings : Settings) (folder : Folder) (path : String) :
    Option (Except SettingsError Folder) :=
  (settings.written? refuses).map fun text =>
    match folder.write? path text.toUTF8.toList with
    | some changed => .ok changed
    | none => .error .unwritable

end Settings

end Nomenclator

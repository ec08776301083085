import Lox.Diagnostic

/-!
# Files

The tool reads the files that its users name. What it sees of the file system is the answer to a
path.

## Contents
- `FileError`, `Files`: the answer to a path.
- `quotedText`, `FileError.outer`: what is told when there is no file.
- `FileTree`: files and directories held in memory.
- `FileTree.find`, `FileTree.read`: following a path.
-/

namespace Lox

/-- Why a file cannot be read. -/
inductive FileError
  /-- Nothing has this path. -/
  | missing
  /-- The path goes through a file as if it were a directory. -/
  | notDirectory
  /-- The path leads to a directory. -/
  | isDirectory
  /-- The path, or a name in it, is longer than any file system allows. -/
  | nameTooLong
  /-- The path holds a null character, which no path can. -/
  | nullCharacter
deriving DecidableEq, Repr

/-- What a path leads to: the text of a file, or the reason why there is none. -/
abbrev Files := String → Except FileError String

/-! ## Messages -/

/-- The quote that a text needs least escape sequences with: the first of the single, the double
and the backward one that it does not hold, or else the single one. -/
def quoteFor (cs : List Char) : Char :=
  if !cs.contains '\'' then '\''
  else if !cs.contains '"' then '"'
  else if !cs.contains '\x60' && !(cs.zip cs.tail).contains ('$', '\x7b') then '\x60'
  else '\''

/-- A character between quotes. Control characters are shown by a letter or by their number. -/
def escapeChar (quote c : Char) : List Char :=
  let letters : List (Char × Char) :=
    [('\x08', 'b'), ('\t', 't'), ('\n', 'n'), ('\x0c', 'f'), ('\r', 'r'), ('\\', '\\')]
  match letters.lookup c with
  | some letter => ['\\', letter]
  | none =>
    if c = '\'' ∧ quote = '\'' then ['\\', c]
    else if c.toNat < 32 ∨ (127 ≤ c.toNat ∧ c.toNat < 160) then
      '\\' :: 'x' :: (Text.hex4 c.toNat).toList.drop 2
    else [c]

/-- The number of units of a quoted text that are shown. -/
def shownWidth : Nat := 128

/-- A text in quotes, of which only the beginning is shown if it is long. -/
def quotedText (text : String) : String :=
  let quote := quoteFor text.toList
  let shown := Text.toUnits
    (String.ofList (quote :: text.toList.flatMap (escapeChar quote) ++ [quote]))
  if shownWidth < shown.length then Text.ofUnits (shown.take shownWidth) ++ "..."
  else Text.ofUnits shown

/-- The error that is shown when a file cannot be read. -/
def FileError.outer (path : String) : FileError → OuterError
  | .missing =>
    ⟨"ENOENT: no such file or directory, open '" ++ path ++ "'", some "ENOENT", some path⟩
  | .notDirectory => ⟨"ENOTDIR: not a directory, open '" ++ path ++ "'", some "ENOTDIR", some path⟩
  | .isDirectory => ⟨"EISDIR: illegal operation on a directory, read", some "EISDIR", none⟩
  | .nameTooLong =>
    ⟨"ENAMETOOLONG: name too long, open '" ++ path ++ "'", some "ENAMETOOLONG", some path⟩
  | .nullCharacter =>
    ⟨"The argument 'path' must be a string, Uint8Array, or URL without null bytes. Received " ++
      quotedText path, some "ERR_INVALID_ARG_VALUE", none⟩

/-! ## Files in memory -/

/-- Files and directories below a working directory, each with the names on the way to it. -/
structure FileTree where
  directories : List (List String)
  files : List (List String × String)

namespace FileTree

/-- The number of bytes that a name may have. -/
def maxName : Nat := 255

/-- The number of bytes that a path may have. -/
def maxPath : Nat := 4095

/-- Where a path has led so far. -/
inductive Place
  /-- A directory of the tree. -/
  | directory (names : List String)
  | file (text : String)
  /-- A directory above the tree, of which nothing is known. -/
  | outside

/-- Whether the tree has a directory of this name: one of its own, or one on the way to a file. -/
def hasDirectory (t : FileTree) (names : List String) : Bool :=
  t.directories.any (fun d => names.isPrefixOf d) ||
    t.files.any fun f => names.isPrefixOf f.1.dropLast

/-- The place that is one name further. Empty names and points change nothing. -/
def enter (t : FileTree) (name : String) : Place → Except FileError Place
  | .file _ => .error .notDirectory
  | .outside =>
    if name ∈ ["", ".", ".."] then .ok .outside
    else if maxName < name.utf8ByteSize then .error .nameTooLong
    else .error .missing
  | .directory names =>
    if name = "" ∨ name = "." then .ok (.directory names)
    else if maxName < name.utf8ByteSize then .error .nameTooLong
    else if name = ".." then
      .ok (if names.isEmpty then .outside else .directory names.dropLast)
    else
      let names := names ++ [name]
      match t.files.reverse.lookup names with
      | some text => .ok (.file text)
      | none => if t.hasDirectory names then .ok (.directory names) else .error .missing

/-- The place to which a path leads. A path that begins with a slash begins at the root. -/
def find (t : FileTree) (path : String) : Except FileError Place :=
  if path = "" then .error .missing
  else if path.toList.contains '\x00' then .error .nullCharacter
  else if maxPath < path.utf8ByteSize then .error .nameTooLong
  else
    match path.splitOn "/" with
    | "" :: names => names.foldlM (fun p name => t.enter name p) .outside
    | names => names.foldlM (fun p name => t.enter name p) (.directory [])

/-- The files of a tree. -/
def read (t : FileTree) : Files := fun path =>
  match t.find path with
  | .ok (.file text) => .ok text
  | .ok _ => .error .isDirectory
  | .error e => .error e

end FileTree

end Lox

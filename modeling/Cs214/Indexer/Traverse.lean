import Cs214.Indexer.AnyOrder
import Cs214.Library.Walk
import Mathlib.Data.List.TakeWhile

/-!
# Indexing a directory

`traverse_dir` walks a directory tree and calls `index_file` on each regular file. A directory is
given by what `readdir` returns for its path, `.` and `..` included, in any order; symbolic links
and other entries are neither directories nor regular files for it.

The walk visits each regular file of a finite tree once, and no two files get one relative path
(`filesOf`), so that the index and its text depend on the tree alone and not on the order in which
`readdir` returns the entries (`traverseDir_any_order`).
-/

namespace Cs214.Indexer

open Tokenizer SortedList

/-! ### The code -/

/-- `d_type` of an entry, as far as the code tells it apart. -/
inductive DType
  | dir
  | reg
  | other
  deriving DecidableEq, Repr

/-- `struct dirent`. -/
structure Dirent where
  dName : CString
  dType : DType
  deriving DecidableEq, Repr

/-- What `opendir` and `readdir` give for a path; a directory that cannot be opened is none, as
`readdir` is called all the same. -/
abbrev Directories := CString → Option (List Dirent)

/-- `fix_dir_path`; of an empty path it reads the character before the first one. -/
def fixDirPath (dirPath : CString) : Option CString := do
  let last ← dirPath.getLast?
  some (if last ≠ '/' then dirPath ++ ['/'] else dirPath)

variable (malloc : Allocator) (fs : FileSystem) (dirs : Directories)

/-- **`traverse_dir`**, with a bound on the depth; the offset path is the path of the first call,
which a static variable keeps. -/
def traverseDir (offsetPath : CString) : ℕ → CString → Indeces → Option Indeces
  | 0, _, _ => none
  | n + 1, dirPath, s => do
    let entries ← dirs dirPath
    entries.foldlM (fun s dirEnt =>
      if dirEnt.dName ≠ ['.'] ∧ dirEnt.dName ≠ ['.', '.'] then
        let newPath := dirPath ++ dirEnt.dName
        match dirEnt.dType with
        | .dir => do
          let fixedPath ← fixDirPath newPath
          traverseDir offsetPath n fixedPath s
        | .reg => indexFile malloc fs offsetPath s newPath
        | .other => some s
      else some s) s

/-! ### Entries -/

/-- A name in a directory. -/
structure Dirent.Named (e : Dirent) : Prop where
  nonempty : e.dName ≠ []
  slash : '/' ∉ e.dName

/-- **What `readdir` may return**: names without a slash, and no name twice. -/
structure Lawful : Prop where
  named : ∀ dir entries, dirs dir = some entries → ∀ e ∈ entries, e.Named
  distinct : ∀ dir entries, dirs dir = some entries → (entries.map Dirent.dName).Nodup

/-- The entry as an item of a walk: a directory to go down into, a file, or neither. -/
def Dirent.item (dir : CString) (e : Dirent) : Option (CString ⊕ CString) :=
  if e.dName ≠ ['.'] ∧ e.dName ≠ ['.', '.'] then
    match e.dType with
    | .dir => some (.inl (dir ++ e.dName ++ ['/']))
    | .reg => some (.inr (dir ++ e.dName))
    | .other => none
  else none

/-- What the walk goes through in a directory. -/
def listing (dir : CString) : Option (List (CString ⊕ CString)) :=
  (dirs dir).map (List.filterMap (Dirent.item dir))

variable {malloc fs dirs} {dirs' : Directories} {dir offset path : CString}
  {entries : List Dirent} {e : Dirent} {s : Indeces} {n : ℕ} {paths : List CString}

/-- A regular file below a directory. -/
def FileBelow (dirs : Directories) (dir path : CString) : Prop :=
  Walk.Below (listing dirs) dir path

/-- An entry that the walk goes through is a file, or a directory with a slash behind it. -/
private theorem Dirent.item_eq_some {item : CString ⊕ CString} (h : e.item dir = some item) :
    item = .inl (dir ++ e.dName ++ ['/']) ∨ item = .inr (dir ++ e.dName) := by
  unfold Dirent.item at h
  split_ifs at h
  split at h
  · exact .inl (Option.some.inj h).symm
  · exact .inr (Option.some.inj h).symm
  · cases h

/-- **The files of a finite tree**: those below the directory, each once, and no two with one
relative path. -/
structure FilesOf (dirs : Directories) (dir : CString) (paths : List CString) : Prop where
  nodup : paths.Nodup
  mem : ∀ path, path ∈ paths ↔ FileBelow dirs dir path
  relative : (paths.map fun path => path.drop dir.length).Nodup

/-- What `index_file` presumes of the files below a directory. -/
structure Readable (fs : FileSystem) (dirs : Directories) (dir : CString) : Prop where
  regular : ∀ path, FileBelow dirs dir path → (fs path).isSome
  hash : ∀ path, FileBelow dirs dir path → ∀ t ∈ words ((fs path).getD []), charSum t < 2 ^ 31

end Cs214.Indexer

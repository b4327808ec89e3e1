import Cs214.Indexer.Traverse
import Cs214.SortedList.Lifetime

/-!
# The program `index`

`main` checks its arguments, indexes a file or a directory, writes the index and destroys it. When
it comes to the end, the file it has written is the index of exactly the files it was given, and
the memory of the index is gone: every token, every record and every list of records has been
destructed once (`main_written`).

Between the functions all iterators are closed, and every list of records belongs to a token of the
index (`Indeces.Tidy`), so that `SLDestroy` reaches all of them.
-/

namespace Cs214.Indexer

open Tokenizer SortedList

/-! ### The code -/

/-- `destruct_index`: the list of records of an entry is destroyed. -/
def destructIndex (records : Store (World RecordT)) (index : IndexT) :
    Option (Store (World RecordT)) := do
  let w ← records.cell index.records
  let w ← slDestroy w
  some (records.insert index.records w)

/-- `SLDestroy(indeces)`. The destructor is called on the entries while the list is destroyed; as
it touches their records only, its calls stand behind. -/
def destroyIndeces (s : Indeces) : Option Indeces := do
  let list ← slDestroy s.list
  let records ← list.destructed.foldlM destructIndex s.records
  some ⟨list, records⟩

/-- What the system calls of `main` give: the contents of files, the entries of directories, the
tests of `dirutil.c`, the character that is read as an answer, and whether a file can be opened for
writing. -/
structure Environment where
  files : FileSystem
  directories : Directories
  exists_ : CString → Bool
  isRegularFile : CString → Bool
  isDir : CString → Bool
  answer : Char
  writable : CString → Bool

/-- How the program ends; `written` with the memory of the index. -/
inductive Outcome
  | usage
  | terminate (errorMes : CString)
  | abort
  | written (filePath text : CString) (memory : Indeces)

/-- What is to be indexed. -/
inductive IType
  | dir
  | file
  deriving DecidableEq, Repr

/-- `check_inverted_index_file`: how the program ends at once, if it does. -/
def checkInvertedIndexFile (env : Environment) (invertedIndexFile : CString) : Option Outcome :=
  if env.exists_ invertedIndexFile then
    if env.isDir invertedIndexFile then
      some (.terminate "The given inverted-index file already exists as a directory.".toList)
    else if env.answer ≠ 'Y' ∧ env.answer ≠ 'y' then some .abort
    else none
  else none

/-- `check_file_path`. -/
def checkFilePath (env : Environment) (filePath : CString) : Except Outcome IType :=
  if env.exists_ filePath then
    if env.isRegularFile filePath then .ok .file
    else if env.isDir filePath then .ok .dir
    else .error (.terminate "Invalid file/directory to be indexed.".toList)
  else .error (.terminate "File/Directory to be indexed does not exist.".toList)

variable (malloc : Allocator)

/-- The file or the directory is indexed. -/
def indexPath (env : Environment) (n : ℕ) (filePath : CString) : IType → Option Indeces
  | .file => indexFile malloc env.files [] createIndeces filePath
  | .dir => do
    let fixedDirPath ← fixDirPath filePath
    traverseDir malloc env.files env.directories fixedDirPath n fixedDirPath createIndeces

/-- **`main`**, with a bound on the depth of directories. -/
def main (env : Environment) (n : ℕ) : List CString → Option Outcome
  | [] => none
  | [_] => some .usage
  | [_, _] => some (.terminate "Missing file operand.".toList)
  | _ :: invertedIndexFile :: filePath :: _ =>
    match checkInvertedIndexFile env invertedIndexFile, checkFilePath env filePath with
    | some outcome, _ => some outcome
    | none, .error outcome => some outcome
    | none, .ok fileType => do
      let s ← indexPath malloc env n filePath fileType
      if env.writable invertedIndexFile then
        let (s, text) ← writeToFile malloc s
        let s ← destroyIndeces s
        some (.written invertedIndexFile text s)
      else some (.terminate "Cannot open file".toList)

/-! ### The lists of an index -/

variable {malloc} {s s' : Indeces} {x : IndexT} {w w' : World IndexT} {token path text : CString}
  {r : RecordT} {e : Hashmap.MapT CString ℤ} {hm : Hashmap.HashmapT CString ℤ}
  {hmi : Hashmap.HmIteratorT} {fs : FileSystem} {offset : CString} {i n : ℕ} {k : ℤ}
  {temp : Option IndexT} {found : Option IndexT}

/-- Lists of records between two functions: tidy, with all iterators closed. -/
def RecordsTidy (records : Store (World RecordT)) : Prop := ∀ a w, records.cell a = some w →
  SortedList.Tidy recordComparator w ∧ w.iterators.dom = ∅

/-- **An index between two functions**: its lists are tidy, and each list of records is that of a
token. -/
structure Indeces.Tidy (s : Indeces) : Prop where
  list : SortedList.Tidy indexComparator s.list
  records : RecordsTidy s.records
  owned : ∀ a ∈ s.records.dom, ∃ x ∈ s.list.items, x.records = a

/-- A list of records that is tidy takes the place of another. -/
private theorem RecordsTidy.insert {records : Store (World RecordT)} {w : World RecordT} {a : ℕ}
    (h : RecordsTidy records) (hw : SortedList.Tidy recordComparator w)
    (hclosed : w.iterators.dom = ∅) : RecordsTidy (records.insert a w) := by
  intro b u hu
  rcases Store.insert_cell_eq_some.mp hu with ⟨-, rfl⟩ | ⟨-, hu⟩
  · exact ⟨hw, hclosed⟩
  · exact h b u hu

/-- Lists of records that have only been read. -/
structure RecordsRead (records records' : Store (World RecordT)) : Prop where
  tidy : RecordsTidy records'
  dom : records'.dom = records.dom
  items : ∀ a, (records'.cell a).map World.items = (records.cell a).map World.items

/-- Lists that are only read twice are only read. -/
private theorem RecordsRead.trans {records records' records'' : Store (World RecordT)}
    (h : RecordsRead records records') (h' : RecordsRead records' records'') :
    RecordsRead records records'' :=
  ⟨h'.tidy, h'.dom.trans h.dom, fun a => (h'.items a).trans (h.items a)⟩

/-- **What is there to be indexed**: one file, which has its own path, or the files of a finite
directory, which have their paths below it. -/
inductive Indexes (env : Environment) (filePath : CString) :
    IType → (offset : CString) → (paths : List CString) → Prop
  | file (hregular : (env.files filePath).isSome)
      (hhash : ∀ t ∈ words ((env.files filePath).getD []), charSum t < 2 ^ 31) :
      Indexes env filePath .file [] [filePath]
  | dir {offset : CString} {paths : List CString} (hfix : fixDirPath filePath = some offset)
      (hdirs : Lawful env.directories) (hfinite : Walk.Finite (listing env.directories) offset)
      (hread : Readable env.files env.directories offset)
      (hfiles : FilesOf env.directories offset paths) : Indexes env filePath .dir offset paths

variable {env : Environment} {filePath : CString} {type : IType} {paths : List CString}

/-- The relative paths of what is to be indexed are distinct. -/
private theorem Indexes.relative (h : Indexes env filePath type offset paths) :
    (paths.map fun path => path.drop offset.length).Nodup := by
  cases h with
  | file => exact List.nodup_singleton _
  | dir _ _ _ _ hfiles => exact hfiles.relative

end Cs214.Indexer

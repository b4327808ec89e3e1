import Cs214.Indexer.HashMap
import Cs214.SortedList.Model
import Cs214.Tokenizer.Model

/-!
# The indexer, as `index.c` computes it

The index is a sorted list of tokens, each with a sorted list of records; a record is a file and
how often the token occurs in it. `indexFile` counts the words of one file in a hash map and
moves the counts into the index, and `writeToFile` prints the index.

The lists of records live in a store of their own, and an index entry holds the address of its
list. `malloc` is an argument, an `Allocator`: it never fails and returns an address that is not
in use. A file system gives the contents of its regular files. Counts are integers without a
bound, which an `int` agrees with as long as no word occurs `2 ^ 31` times in a file; the hash of
a string wraps around.
-/

namespace Cs214.Indexer

open Tokenizer SortedList Hashmap

/-! ### Strings -/

/-- `strcmp`: the order of the first characters that differ, as unsigned values. Only the sign of
the result is specified. -/
def strcmp : CString → CString → ℤ
  | [], [] => 0
  | [], _ :: _ => -1
  | _ :: _, [] => 1
  | c :: s, d :: t => if c < d then -1 else if d < c then 1 else strcmp s t

def compareString (s1 s2 : CString) : ℤ := strcmp s1 s2

/-- A `char`, which is signed, as an `int`. -/
def charToInt (c : Char) : ℤ := if c.toNat < 128 then c.toNat else c.toNat - 256

/-- `int length = strlen(string)`, as the bound of a loop. -/
def hashLength (string : CString) : ℕ := ((string.length : ℤ).bmod (2 ^ 32)).toNat

/-- The sum of the characters, in an `int` of 32 bits. -/
def hashString (string : CString) : ℤ :=
  (string.take (hashLength string)).foldl (fun hash c => (hash + charToInt c).bmod (2 ^ 32)) 0

/-! ### Records and indeces -/

structure RecordT where
  file : CString
  count : ℤ
  deriving DecidableEq, Repr

def createRecord (file : CString) (count : ℤ) : RecordT := ⟨file, count⟩

/-- Records in descending order of their counts. -/
def compareRecord : CompareFuncT RecordT := fun record1 record2 =>
  let comp :=
    if record1.count = record2.count then strcmp record2.file record1.file
    else record1.count - record2.count
  if comp > 0 then 1 else if comp < 0 then -1 else 0

/-- A token with the address of its list of records. -/
structure IndexT where
  token : CString
  records : ℕ
  deriving DecidableEq, Repr

/-- Tokens in ascending order, hence the twist. -/
def compareIndex : CompareFuncT IndexT := fun index1 index2 =>
  let comp := strcmp index2.token index1.token
  if comp > 0 then 1 else if comp < 0 then -1 else 0

/-- `malloc`: an address that is not in use. -/
structure Allocator where
  alloc : Finset ℕ → ℕ
  fresh : ∀ used, alloc used ∉ used

/-- The list of tokens, and the lists of records by their addresses. -/
structure Indeces where
  list : World IndexT
  records : Store (World RecordT)

/-- The empty index of `main`. -/
def createIndeces : Indeces := ⟨slCreate compareIndex .func, .empty⟩

variable (malloc : Allocator)

/-- `create_index`: a token without records. -/
def createIndex (s : Indeces) (token : CString) : Indeces × IndexT :=
  let records := malloc.alloc s.records.dom
  ({ s with records := s.records.insert records (slCreate compareRecord .func) }, ⟨token, records⟩)

/-- The loop of `find_index`, with the iterator `sli` on the list. -/
def findIndexLoop (token : CString) (sli : ℕ) :
    ℕ → World IndexT → Option IndexT → Option (World IndexT × Option IndexT)
  | 0, _, _ => none
  | _ + 1, w, none => do
    let w ← slDestroyIterator w sli
    some (w, none)
  | n + 1, w, some temp =>
    if strcmp temp.token token = 0 then do
      let w ← slDestroyIterator w sli
      some (w, some temp)
    else do
      let (w, temp) ← slNextItem w sli
      findIndexLoop token sli n w temp

/-- `find_index`: a linear search through an iterator. -/
def findIndex (w : World IndexT) (token : CString) : Option (World IndexT × Option IndexT) := do
  let (w, sli) ← slCreateIterator w (malloc.alloc w.iterators.dom)
  let temp ← slGetItem w sli
  findIndexLoop token sli w.fuel w temp

/-! ### Counting the words of a file -/

/-- The contents of the regular files. -/
abbrev FileSystem := CString → Option CString

def hashSize : ℤ := 100

/-- What `tokenize_file` does with a lower-case word: a count of 1, or 1 more. -/
def countToken (hm : HashmapT CString ℤ) (token : CString) : Option (HashmapT CString ℤ) := do
  match ← hmGet hm token with
  | none => do
    let (hm, _) ← hmStore hm token 1 (malloc.alloc hm.nodes.dom)
    some hm
  | some tokenCount => do
    let node ← hm.nodes.cell tokenCount
    hm.setValue tokenCount (node.map.value + 1)

/-- The loop of `tokenize_file`. -/
def tokenizeLoop : ℕ → TokenizerT → HashmapT CString ℤ → Option (HashmapT CString ℤ)
  | 0, _, _ => none
  | n + 1, tk, hm => do
    let (tk, token) ← tkGetNextToken indexer tk
    match token with
    | none => some hm
    | some token =>
      if tkGetType tk = .word then do
        let hm ← countToken malloc hm (token.map tolower)
        tokenizeLoop n tk hm
      else tokenizeLoop n tk hm

/-- **`tokenize_file`** counts the words of a file. -/
def tokenizeFile (fs : FileSystem) (filePath : CString) : Option (HashmapT CString ℤ) := do
  let fileBuffer ← fs filePath
  let hm ← hmCreate hashSize hashString compareString
  tokenizeLoop malloc (fileBuffer.length + 1) (tkCreate indexer fileBuffer) hm

/-! ### Indexing a file -/

/-- The path behind the offset path. -/
def relativePath (offsetPath filePath : CString) : Option CString :=
  if offsetPath.length ≤ filePath.length then some (filePath.drop offsetPath.length) else none

/-- `SLInsert` into the list of records at an address. -/
def insertRecord (s : Indeces) (records : ℕ) (newRecord : RecordT) : Option Indeces := do
  let w ← s.records.cell records
  let (w, _) ← indexerSLInsert w newRecord (malloc.alloc w.nodes.dom)
  some { s with records := s.records.insert records w }

/-- The body of the loop of `index_file`: the record of one token and its count. -/
def addRecord (relativePath : CString) (s : Indeces) (temp : MapT CString ℤ) :
    Option Indeces := do
  let (list, foundIndex) ← findIndex malloc s.list temp.key
  let s := { s with list := list }
  let newRecord := createRecord relativePath temp.value
  match foundIndex with
  | none => do
    let (s, newIndex) := createIndex malloc s temp.key
    let s ← insertRecord malloc s newIndex.records newRecord
    let (list, _) ← indexerSLInsert s.list newIndex (malloc.alloc s.list.nodes.dom)
    some { s with list := list }
  | some foundIndex => insertRecord malloc s foundIndex.records newRecord

/-- The loop of `index_file` over the entries of the hash map. -/
def indexLoop (relativePath : CString) (hm : HashmapT CString ℤ) :
    ℕ → HmIteratorT → Indeces → Option Indeces
  | 0, _, _ => none
  | n + 1, hmi, s => do
    let (hmi, temp) ← hmiGetNext hm hmi
    match temp with
    | none => some s
    | some temp => do
      let map ← hm.map temp
      let s ← addRecord malloc relativePath s map
      indexLoop relativePath hm n hmi s

/-- **`index_file`** adds a record for each word of a file. -/
def indexFile (fs : FileSystem) (offsetPath : CString) (s : Indeces) (filePath : CString) :
    Option Indeces := do
  let relativePath ← relativePath offsetPath filePath
  let hm ← tokenizeFile malloc fs filePath
  indexLoop malloc relativePath hm hm.fuel hmCreateIterator s

/-- One call of `index_file` after the other, from the empty index. -/
def indexFiles (fs : FileSystem) (offsetPath : CString) (filePaths : List CString) :
    Option Indeces :=
  filePaths.foldlM (indexFile malloc fs offsetPath) createIndeces

/-! ### Writing the index -/

/-- The line of a record, up to what separates it from the next one. -/
def recordLine (record : RecordT) : CString :=
  "\t\t\x7b\"".toList ++ record.file ++ "\" : ".toList ++ (toString record.count).toList ++
    "\x7d".toList

/-- What follows an item: a comma if there is a next one. -/
def separator (next : Bool) : CString := if next then ",\n".toList else "\n".toList

/-- The loop over the records of a token; `file` is what has been written. -/
def writeRecords (recordIter : ℕ) :
    ℕ → World RecordT → Option RecordT → CString → Option (World RecordT × CString)
  | 0, _, _, _ => none
  | _ + 1, w, none, file => some (w, file)
  | n + 1, w, some recordTemp, file => do
    let (w, next) ← slNextItem w recordIter
    writeRecords recordIter n w next (file ++ recordLine recordTemp ++ separator next.isSome)

/-- A token with its records. -/
def writeIndex (s : Indeces) (indexTemp : IndexT) (file : CString) :
    Option (Indeces × CString) := do
  let w ← s.records.cell indexTemp.records
  let (w, recordIter) ← slCreateIterator w (malloc.alloc w.iterators.dom)
  let recordTemp ← slGetItem w recordIter
  let file := file ++ "\t\x7b\"".toList ++ indexTemp.token ++ "\" : [\n".toList
  let (w, file) ← writeRecords recordIter w.fuel w recordTemp file
  let w ← slDestroyIterator w recordIter
  some ({ s with records := s.records.insert indexTemp.records w }, file ++ "\t]\x7d".toList)

/-- The loop over the tokens. -/
def writeIndeces (indexIter : ℕ) :
    ℕ → Indeces → Option IndexT → CString → Option (Indeces × CString)
  | 0, _, _, _ => none
  | _ + 1, s, none, file => some (s, file)
  | n + 1, s, some indexTemp, file => do
    let (s, file) ← writeIndex malloc s indexTemp file
    let (list, next) ← slNextItem s.list indexIter
    writeIndeces indexIter n { s with list := list } next (file ++ separator next.isSome)

/-- **`write_to_file`**: the index and the text of the file. -/
def writeToFile (s : Indeces) : Option (Indeces × CString) := do
  let (list, indexIter) ← slCreateIterator s.list (malloc.alloc s.list.iterators.dom)
  let s := { s with list := list }
  let indexTemp ← slGetItem s.list indexIter
  let (s, file) ←
    writeIndeces malloc indexIter s.list.fuel s indexTemp "\x7b\"list\" : [\n".toList
  let list ← slDestroyIterator s.list indexIter
  some ({ s with list := list }, file ++ "]\x7d\n".toList)

/-- **What the index holds**: the tokens with their records, in the order of the lists. -/
def Indeces.contents (s : Indeces) : List (CString × List RecordT) :=
  s.list.items.map fun x => (x.token, ((s.records.cell x.records).map World.items).getD [])

end Cs214.Indexer

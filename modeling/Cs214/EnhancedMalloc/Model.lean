import Cs214.Library.Memory
import Cs214.Library.Run

/-!
# The allocator, as `heap.c` computes it

The heap is the byte array `mem` of the source. Entry headers live in the same bytes as the
data of the clients: a header field is read and written little-endian, at its offset in
`struct MemEntry` as a compiler for a 64-bit target lays it out (8-byte pointers, 4-byte
`int`, `unsigned` and `bool`), so that `ENTRY_SIZE` is 40. Addresses are those of the process:
the array stands at `A.addr`, and a load or store outside of it answers `none`.

Arithmetic is that of the source, on `unsigned` (32 bits) and `size_t` and pointers (64 bits),
each of which wraps around. The `while` loops carry a fuel argument that starts at the number
of bytes of the array.

The client's side is `Config`, which adds to the heap the blocks the client holds, and
`machine`: calls of `customMalloc` and `customFree` with arbitrary arguments, and writes into
blocks held. The reports on the standard error stream are part of the answers.
-/

namespace Cs214.EnhancedMalloc

/-- `HEAP_SIZE`. -/
def heapSize : ℕ := 5000

/-- `ENTRY_SIZE`, the size of `struct MemEntry`. -/
def entrySize : ℕ := 40

/-- Conversion to `unsigned`. -/
def unsigned (x : ℤ) : ℕ := (x % 2 ^ 32).toNat

/-- Conversion to `size_t` or to a pointer. -/
def sizeT (x : ℤ) : ℕ := (x % 2 ^ 64).toNat

/-- The value of an `int` with these bits. -/
def toInt (v : ℕ) : ℤ := if v < 2 ^ 31 then v else v - 2 ^ 32

/-- Where the array `mem` stands: not at the null pointer, and with an address behind its
end. -/
structure Arena where
  addr : ℕ
  pos : 0 < addr
  fits : addr + heapSize < 2 ^ 64

/-! ### Headers -/

/-- The fields of `struct MemEntry`. -/
inductive Field
  | prev
  | next
  | isFree
  | fileFree
  | lineFree
  | size
  deriving DecidableEq

namespace Field

/-- The offset of a field. -/
def offset : Field → ℕ
  | prev => 0
  | next => 8
  | isFree => 16
  | fileFree => 24
  | lineFree => 32
  | size => 36

/-- The number of bytes of a field. -/
def width : Field → ℕ
  | prev => 8
  | next => 8
  | isFree => 4
  | fileFree => 8
  | lineFree => 4
  | size => 4

end Field

/-- The static variables of the file. -/
structure Heap where
  mem : Memory
  initialized : Bool
  head : ℕ

/-- The bytes at `a` belong to the array. -/
def Arena.Holds (A : Arena) (a k : ℕ) : Prop := A.addr ≤ a ∧ a + k ≤ A.addr + heapSize

instance (A : Arena) (a k : ℕ) : Decidable (A.Holds a k) :=
  inferInstanceAs (Decidable (A.addr ≤ a ∧ a + k ≤ A.addr + heapSize))

/-- `temp->f`. -/
def Heap.load (A : Arena) (h : Heap) (temp : ℕ) (f : Field) : Option ℕ :=
  if A.Holds (temp + f.offset) f.width then some (h.mem.readLE (temp + f.offset) f.width)
  else none

/-- `temp->f = v`. -/
def Heap.store (A : Arena) (h : Heap) (temp : ℕ) (f : Field) (v : ℕ) : Option Heap :=
  if A.Holds (temp + f.offset) f.width then
    some { h with mem := h.mem.writeLE (temp + f.offset) f.width v }
  else none

/-- `if (p != NULL) p->prev = v`. -/
def Heap.storePrevIfAny (A : Arena) (h : Heap) (p v : ℕ) : Option Heap :=
  if p = 0 then some h else h.store A p .prev v

/-- The test `p != NULL && p->isFree`. -/
def Heap.isFreeIfAny (A : Arena) (h : Heap) (p : ℕ) : Option Bool :=
  if p = 0 then some false else (h.load A p .isFree).map (· ≠ 0)

/-! ### Reports -/

/-- `HeapError`. -/
inductive HeapError
  | mallocInsufficient
  | freeRedundant
  | freeNotAllocated
  | freeMiddle
  deriving DecidableEq

/-- A pointer as `%p` prints it. -/
def pointerText (a : ℕ) : String :=
  if a = 0 then "(nil)" else "0x" ++ String.ofList (Nat.toDigits 16 a)

/-- The message of an error. -/
def HeapError.text (address : ℕ) : HeapError → String
  | mallocInsufficient => "Memory is insufficient to malloc()."
  | freeRedundant => "Memory @" ++ pointerText address ++ " is already free-d."
  | freeNotAllocated => "Memory @" ++ pointerText address ++ " is not pre-allocated."
  | freeMiddle => "Memory @" ++ pointerText address ++
      " is not the previously returned address by malloc()."

/-- A report: the caller's file and line, the error with its message, and the line and file of
the earlier call of `customFree` that a redundant one is told about. -/
structure Report where
  file : ℕ
  callerLine : ℤ
  error : HeapError
  text : String
  freedAt : Option (ℤ × ℕ)

/-- `errorReport`. -/
def errorReport (file : ℕ) (callerLine : ℤ) (error : HeapError) (address : ℕ) : Report :=
  ⟨file, callerLine, error, error.text address, none⟩

/-! ### `customMalloc` -/

/-- The branch `if (!initialized)` of `customMalloc`. -/
def initHead (A : Arena) (h : Heap) : Option Heap := do
  let h := { h with head := A.addr }
  let h ← h.store A h.head .prev 0
  let h ← h.store A h.head .next 0
  let h ← h.store A h.head .isFree 1
  let h ← h.store A h.head .fileFree 0
  let h ← h.store A h.head .lineFree 0
  let h ← h.store A h.head .size (unsigned (sizeT (heapSize - entrySize)))
  some { h with initialized := true }

/-- The body of the branch that has found a chunk: `temp` is split. -/
def splitEntry (A : Arena) (size : ℕ) (h : Heap) (temp : ℕ) : Option (Heap × ℕ) := do
  let newEntry := sizeT (temp + entrySize + size)
  let h ← h.store A newEntry .prev temp
  let next ← h.load A temp .next
  let h ← h.store A newEntry .next next
  let h ← h.store A temp .next newEntry
  let next ← h.load A newEntry .next
  let h ← h.storePrevIfAny A next newEntry
  let h ← h.store A newEntry .isFree 1
  let tempSize ← h.load A temp .size
  let h ← h.store A newEntry .size (unsigned (sizeT (unsigned (tempSize - size) - entrySize)))
  let h ← h.store A temp .isFree 0
  let h ← h.store A temp .size size
  some (h, sizeT (temp + entrySize))

/-- The test `temp->isFree && temp->size >= size + ENTRY_SIZE`. -/
def fits (A : Arena) (size : ℕ) (h : Heap) (temp : ℕ) : Option Bool := do
  let isFree ← h.load A temp .isFree
  if isFree = 0 then some false
  else
    let tempSize ← h.load A temp .size
    some (sizeT (size + entrySize) ≤ tempSize)

/-- The `while` loop of `customMalloc`: the block found, or null. -/
def mallocLoop (A : Arena) (size : ℕ) : ℕ → Heap → ℕ → Option (Heap × ℕ)
  | 0, _, _ => none
  | n + 1, h, temp =>
    if temp = 0 then some (h, 0)
    else do
      if ← fits A size h temp then splitEntry A size h temp
      else
        let next ← h.load A temp .next
        mallocLoop A size n h next

/-- The heap after the first lines of `customMalloc`. -/
def ensureInit (A : Arena) (h : Heap) : Option Heap :=
  if h.initialized then some h else initHead A h

/-- `customMalloc`: the address answered, and the report when there is no space. -/
def customMalloc (A : Arena) (h : Heap) (size file : ℕ) (callerLine : ℤ) :
    Option (Heap × ℕ × Option Report) := do
  let h ← ensureInit A h
  let (h, p) ← mallocLoop A size heapSize h h.head
  if p = 0 then some (h, 0, some (errorReport file callerLine .mallocInsufficient 0))
  else some (h, p, none)

/-! ### `customFree` -/

/-- Merge `temp` with the free chunk before it: the tracking node moves there. -/
def mergePrev (A : Arena) (h : Heap) (temp : ℕ) : Option (Heap × ℕ) := do
  let prev ← h.load A temp .prev
  if ← h.isFreeIfAny A prev then
    let prevSize ← h.load A prev .size
    let tempSize ← h.load A temp .size
    let h ← h.store A prev .size (unsigned (sizeT (prevSize + sizeT (tempSize + entrySize))))
    let next ← h.load A temp .next
    let h ← h.storePrevIfAny A next prev
    let h ← h.store A prev .next next
    some (h, prev)
  else some (h, temp)

/-- Merge `temp` with the free chunk behind it. -/
def mergeNext (A : Arena) (h : Heap) (temp : ℕ) : Option Heap := do
  let next ← h.load A temp .next
  if ← h.isFreeIfAny A next then
    let tempSize ← h.load A temp .size
    let nextSize ← h.load A next .size
    let h ← h.store A temp .size (unsigned (sizeT (tempSize + sizeT (nextSize + entrySize))))
    let nextNext ← h.load A next .next
    let h ← h.store A temp .next nextNext
    h.storePrevIfAny A nextNext temp
  else some h

/-- The body of the branch that frees the memory. -/
def freeEntry (A : Arena) (file : ℕ) (callerLine : ℤ) (h : Heap) (temp : ℕ) : Option Heap := do
  let h ← h.store A temp .isFree 1
  let h ← h.store A temp .fileFree file
  let h ← h.store A temp .lineFree (unsigned callerLine)
  let (h, temp) ← mergePrev A h temp
  mergeNext A h temp

/-- The `while` loop of `customFree`, with the report of the branch it ends in. -/
def freeLoop (A : Arena) (data file : ℕ) (callerLine : ℤ) :
    ℕ → Heap → ℕ → Option (Heap × Option Report)
  | 0, _, _ => none
  | n + 1, h, temp =>
    if temp = 0 then some (h, some (errorReport file callerLine .freeNotAllocated data))
    else do
      let offset := sizeT (temp + entrySize)
      let size ← h.load A temp .size
      if offset < data ∧ data < sizeT (offset + size) then
        some (h, some (errorReport file callerLine .freeMiddle data))
      else if offset = data then
        let isFree ← h.load A temp .isFree
        if isFree = 1 then
          let lineFree ← h.load A temp .lineFree
          let fileFree ← h.load A temp .fileFree
          some (h, some { errorReport file callerLine .freeRedundant data with
            freedAt := some (toInt lineFree, fileFree) })
        else
          let h ← freeEntry A file callerLine h temp
          some (h, none)
      else
        let next ← h.load A temp .next
        freeLoop A data file callerLine n h next

/-- `customFree`. -/
def customFree (A : Arena) (h : Heap) (data file : ℕ) (callerLine : ℤ) :
    Option (Heap × Option Report) :=
  if h.initialized then freeLoop A data file callerLine heapSize h h.head
  else some (h, some (errorReport file callerLine .freeNotAllocated data))

/-! ### The machine -/

/-- The heap together with the blocks the client holds: those `customMalloc` returned, with
the size asked for, and `customFree` has not released since. -/
structure Config where
  heap : Heap
  live : List (ℕ × ℕ)

/-- What a client does. -/
inductive Op
  | malloc (size file : ℕ) (callerLine : ℤ)
  | free (data file : ℕ) (callerLine : ℤ)
  | write (addr : ℕ) (byte : UInt8)

/-- What the client gets back. -/
inductive Answer
  | pointer (p : ℕ) (report : Option Report)
  | freed (report : Option Report)
  | written

/-- The arguments are in the ranges of their types, and writes are into blocks held. -/
def legal (s : Config) : Op → Prop
  | .malloc size file callerLine =>
    size < 2 ^ 32 ∧ file < 2 ^ 64 ∧ -2 ^ 31 ≤ callerLine ∧ callerLine < 2 ^ 31
  | .free data file callerLine =>
    data < 2 ^ 64 ∧ file < 2 ^ 64 ∧ -2 ^ 31 ≤ callerLine ∧ callerLine < 2 ^ 31
  | .write addr _ => ∃ b ∈ s.live, b.1 ≤ addr ∧ addr < b.1 + b.2

instance (s : Config) : ∀ op, Decidable (legal s op)
  | .malloc size file callerLine => inferInstanceAs (Decidable
      (size < 2 ^ 32 ∧ file < 2 ^ 64 ∧ -2 ^ 31 ≤ callerLine ∧ callerLine < 2 ^ 31))
  | .free data file callerLine => inferInstanceAs (Decidable
      (data < 2 ^ 64 ∧ file < 2 ^ 64 ∧ -2 ^ 31 ≤ callerLine ∧ callerLine < 2 ^ 31))
  | .write addr _ => inferInstanceAs (Decidable (∃ b ∈ s.live, b.1 ≤ addr ∧ addr < b.1 + b.2))

/-- One step of the client. -/
def step (A : Arena) (s : Config) : Op → Option (Config × Answer)
  | .malloc size file callerLine => do
    let (h, p, report) ← customMalloc A s.heap size file callerLine
    some (⟨h, if p = 0 then s.live else (p, size) :: s.live⟩, .pointer p report)
  | .free data file callerLine => do
    let (h, report) ← customFree A s.heap data file callerLine
    let live := if report.isNone then s.live.filter (fun b => b.1 ≠ data) else s.live
    some (⟨h, live⟩, .freed report)
  | .write addr byte =>
    some (⟨{ s.heap with mem := s.heap.mem.writeLE addr 1 byte.toNat }, s.live⟩, .written)

/-- The allocator and its client as a machine. -/
def machine (A : Arena) : Machine Config Op Answer := ⟨legal, step A⟩

instance (A : Arena) (s : Config) (op : Op) : Decidable ((machine A).legal s op) :=
  inferInstanceAs (Decidable (legal s op))

/-- The state before the first call: the array as its initializer fills it, and nothing
held. -/
def start (A : Arena) : Config where
  heap := ⟨fun a => if a = A.addr then 48 else 0, false, 0⟩
  live := []

end Cs214.EnhancedMalloc

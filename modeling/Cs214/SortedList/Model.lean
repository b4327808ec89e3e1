import Cs214.Library.Path
import Cs214.Library.Run

/-!
# The sorted list and its iterators, as `sorted-list.c` computes them

A `World` is the memory one sorted list owns: the nodes, the `SortedList` structure (absent
before `SLCreate` and after `SLDestroy`), the iterators, and the log of calls of the user's
destructor. Every function reads and writes nodes by address; reading an address that holds
no node answers `none`, so a use after `free` is a fault and not a value. Loops and the
recursion of `nodeDestroy` carry a fuel argument that starts at the number of allocated
nodes plus one.

The addresses `malloc` returns are arguments of the calls that allocate: any address that
is not in use is allowed (`legal`), so the addresses of freed nodes and iterators may come
back. `malloc` itself never fails here; in the source `nodeCreate` exits the process when it
does, and `SLCreate` and `SLCreateIterator` return `NULL`.
-/

namespace Cs214

/-- The user's comparator. -/
abbrev CompareFuncT (α : Type) := α → α → ℤ

/-- The user's destructor: a null function pointer, or a function whose calls are logged. -/
inductive DestructFuncT
  | null
  | func
  deriving DecidableEq, Repr

/-- A comparator that is a total order returning `-1`, `0` or `1`, as `sorted-list.h`
presumes. Distinct item pointers may compare equal. -/
structure Comparator (α : Type) where
  compare : CompareFuncT α
  range : ∀ a b, compare a b = -1 ∨ compare a b = 0 ∨ compare a b = 1
  swap : ∀ a b, compare b a = -compare a b
  trans : ∀ a b c, compare a b = 1 → compare b c = 1 → compare a c = 1
  congr_left : ∀ a b c, compare a b = 0 → compare a c = compare b c

/-- The comparator of the test program, on the integers its items point to. -/
def compareInt : Comparator ℤ where
  compare a b := if a > b then 1 else if a < b then -1 else 0
  range a b := by split_ifs <;> simp
  swap a b := by split_ifs <;> omega
  trans a b c := by
    intro h₁ h₂
    split_ifs at * <;> omega
  congr_left a b c := by
    intro h
    obtain rfl : a = b := by
      split_ifs at h <;> omega
    rfl

/-- The header of a list. -/
structure SortedList (α : Type) where
  compare : CompareFuncT α
  destruct : DestructFuncT
  first : Option ℕ

/-- An iterator. -/
structure SortedListIterator where
  current : Option ℕ
  destruct : DestructFuncT

namespace SortedList

/-- A node of the linked list. -/
structure Node (α : Type) where
  ptrCount : ℤ
  data : α
  next : Option ℕ

/-- The memory of one list. -/
structure World (α : Type) where
  nodes : Store (Node α)
  list : Option (SortedList α)
  iterators : Store SortedListIterator
  destructed : List α

variable {α : Type}

namespace World

/-- The first node of the list, `none` also when there is no list. -/
def first (w : World α) : Option ℕ := w.list.bind SortedList.first

/-- Fuel for one loop over the nodes. -/
def fuel (w : World α) : ℕ := w.nodes.dom.card + 1

/-- Write a node. -/
def setNode (w : World α) (a : ℕ) (node : Node α) : World α :=
  { w with nodes := w.nodes.insert a node }

/-- `a->next = p`. -/
def setNext (w : World α) (a : ℕ) (p : Option ℕ) : Option (World α) := do
  let node ← w.nodes.cell a
  some (w.setNode a { node with next := p })

/-- `list->first = p`. -/
def setFirst (w : World α) (l : SortedList α) (p : Option ℕ) : World α :=
  { w with list := some { l with first := p } }

/-- `a->ptrCount += k`. -/
def addPtr (w : World α) (a : ℕ) (k : ℤ) : Option (World α) := do
  let node ← w.nodes.cell a
  some (w.setNode a { node with ptrCount := node.ptrCount + k })

/-- `if (p != NULL) p->ptrCount += k`. -/
def addPtrIfAny (w : World α) (p : Option ℕ) (k : ℤ) : Option (World α) :=
  match p with
  | none => some w
  | some a => w.addPtr a k

/-- `free` of a node. -/
def freeNode (w : World α) (a : ℕ) : World α := { w with nodes := w.nodes.erase a }

/-- A call of the destructor; calling a null function pointer faults. -/
def callDestruct (w : World α) (destruct : DestructFuncT) (x : α) : Option (World α) :=
  match destruct with
  | .null => none
  | .func => some { w with destructed := w.destructed ++ [x] }

end World

/-! ### Nodes -/

/-- `nodeDestroy` drops one pointer to `node`: the node is destroyed when it was the last
one, and then the pointer the node held to its successor is dropped in the same way. The
answer is the first node that stays. -/
def nodeDestroy (destruct : DestructFuncT) :
    ℕ → World α → Option ℕ → Option (World α × Option ℕ)
  | _, w, none => some (w, none)
  | 0, _, some _ => none
  | n + 1, w, some a => do
    let node ← w.nodes.cell a
    if node.ptrCount = 1 then
      let w ← if destruct = .null then some w else w.callDestruct destruct node.data
      nodeDestroy destruct n (w.freeNode a) node.next
    else
      let w ← w.addPtr a (-1)
      some (w, some a)

/-- `nodeCreate` at the address `malloc` returned. -/
def nodeCreate (w : World α) (addr : ℕ) (data : α) : World α := w.setNode addr ⟨1, data, none⟩

/-! ### Lists -/

/-- `SLCreate`, in a memory without nodes and iterators. -/
def slCreate (compare : CompareFuncT α) (destruct : DestructFuncT) : World α where
  nodes := .empty
  list := some ⟨compare, destruct, none⟩
  iterators := .empty
  destructed := []

/-- The loop of `SLInsert` with its exits: `advance` is the test that the comparison result
keeps the loop going. -/
def slInsertLoop (advance : ℤ → Bool) (l : SortedList α) (newObj : α) (addr : ℕ) :
    ℕ → World α → Option ℕ → ℕ → Option (World α × ℤ)
  | 0, _, _, _ => none
  | n + 1, w, previous, smallerNode => do
    let node ← w.nodes.cell smallerNode
    let comp := l.compare node.data newObj
    if advance comp then
      match node.next with
      | none =>
        -- the end of the list
        let w ← (nodeCreate w addr newObj).setNext smallerNode (some addr)
        some (w, 1)
      | some next => slInsertLoop advance l newObj addr n w (some smallerNode) next
    else if comp = 0 then some (w, 0)
    else
      match previous with
      | none =>
        let w ← ((nodeCreate w addr newObj).setFirst l (some addr)).setNext addr (some smallerNode)
        some (w, 1)
      | some p =>
        let w ← (nodeCreate w addr newObj).setNext p (some addr)
        let w ← w.setNext addr (some smallerNode)
        some (w, 1)

/-- `SLInsert` up to the loop test, which the two copies of the file write differently. -/
def slInsertWith (advance : ℤ → Bool) (w : World α) (newObj : α) (addr : ℕ) :
    Option (World α × ℤ) := do
  let l ← w.list
  match l.first with
  | none => some ((nodeCreate w addr newObj).setFirst l (some addr), 1)
  | some a => slInsertLoop advance l newObj addr w.fuel w none a

/-- `SLInsert` of `SortedList/src`. -/
def slInsert (w : World α) (newObj : α) (addr : ℕ) : Option (World α × ℤ) :=
  slInsertWith (· == 1) w newObj addr

/-- `SLInsert` of `Indexer/src`, whose loop test is `> 0`. -/
def indexerSLInsert (w : World α) (newObj : α) (addr : ℕ) : Option (World α × ℤ) :=
  slInsertWith (0 < ·) w newObj addr

/-- The search loop of `SLRemove`: the node found, if any, and the node before it. -/
def slRemoveLoop (l : SortedList α) (newObj : α) (w : World α) :
    ℕ → Option ℕ → Option ℕ → Option (Option ℕ × Option ℕ)
  | 0, _, _ => none
  | _ + 1, prev, none => some (prev, none)
  | n + 1, prev, some curr => do
    let node ← w.nodes.cell curr
    if l.compare node.data newObj ≠ 0 then slRemoveLoop l newObj w n (some curr) node.next
    else some (prev, some curr)

/-- `SLRemove`, the branch that removes the first node. -/
def removeFirst (l : SortedList α) (w : World α) (temp : ℕ) : Option (World α) := do
  let w ← w.addPtr temp (-1)
  let node ← w.nodes.cell temp
  let w := w.setFirst l node.next
  let w ← w.addPtrIfAny node.next 1
  let node ← w.nodes.cell temp
  if node.ptrCount = 0 then
    let w ← w.callDestruct l.destruct node.data
    let w ← w.addPtrIfAny node.next (-1)
    some (w.freeNode temp)
  else some w

/-- `SLRemove`, the branch that removes a node behind another one. -/
def removeAfter (l : SortedList α) (w : World α) (prev curr : ℕ) : Option (World α) := do
  let node ← w.nodes.cell curr
  let w ← w.setNext prev node.next
  let w ← w.addPtrIfAny node.next 1
  let (w, _) ← nodeDestroy l.destruct w.fuel w (some curr)
  some w

/-- `SLRemove`. -/
def slRemove (w : World α) (newObj : α) : Option (World α × ℤ) := do
  let l ← w.list
  match l.first with
  | none => some (w, 0)
  | some a => do
    match ← slRemoveLoop l newObj w w.fuel none (some a) with
    | (_, none) => some (w, 0)
    | (none, some curr) => do some (← removeFirst l w curr, 1)
    | (some prev, some curr) => do some (← removeAfter l w prev curr, 1)

/-- The loop of `SLDestroy`: `while (list->first != NULL) SLRemove(list, list->first->data)`. -/
def slDestroyLoop : ℕ → World α → Option (World α)
  | 0, _ => none
  | n + 1, w => do
    let l ← w.list
    match l.first with
    | none => some w
    | some a =>
      let node ← w.nodes.cell a
      let (w, _) ← slRemove w node.data
      slDestroyLoop n w

/-- `SLDestroy`. -/
def slDestroy (w : World α) : Option (World α) := do
  let w ← slDestroyLoop w.fuel w
  some { w with list := none }

/-! ### Iterators -/

/-- `SLCreateIterator` at the address `malloc` returned, on a list that is not `NULL`. -/
def slCreateIterator (w : World α) (addr : ℕ) : Option (World α × ℕ) := do
  let l ← w.list
  let w ← w.addPtrIfAny l.first 1
  some ({ w with iterators := w.iterators.insert addr ⟨l.first, l.destruct⟩ }, addr)

/-- `SLGetItem`. -/
def slGetItem (w : World α) (iter : ℕ) : Option (Option α) := do
  let it ← w.iterators.cell iter
  match it.current with
  | none => some none
  | some a =>
    let node ← w.nodes.cell a
    some (some node.data)

/-- `SLNextItem`. -/
def slNextItem (w : World α) (iter : ℕ) : Option (World α × Option α) := do
  let it ← w.iterators.cell iter
  match it.current with
  | none => some (w, none)
  | some a =>
    let node ← w.nodes.cell a
    let (w, next) ← if node.ptrCount = 1 then nodeDestroy it.destruct w.fuel w (some a)
      else do
        let w ← w.addPtr a (-1)
        some (w, node.next)
    let w := { w with iterators := w.iterators.insert iter { it with current := next } }
    let w ← w.addPtrIfAny next 1
    let item ← slGetItem w iter
    some (w, item)

/-- `SLDestroyIterator`. -/
def slDestroyIterator (w : World α) (iter : ℕ) : Option (World α) := do
  let it ← w.iterators.cell iter
  let (w, _) ← nodeDestroy it.destruct w.fuel w it.current
  some { w with iterators := w.iterators.erase iter }

/-! ### The machine -/

/-- The calls a client makes after `SLCreate`; `addr` is the address `malloc` will return. -/
inductive Op (α : Type)
  | insert (newObj : α) (addr : ℕ)
  | remove (newObj : α)
  | destroy
  | createIterator (addr : ℕ)
  | nextItem (iter : ℕ)
  | getItem (iter : ℕ)
  | destroyIterator (iter : ℕ)
  deriving DecidableEq

/-- What the calls return. -/
inductive Answer (α : Type)
  | int (r : ℤ)
  | iter (a : ℕ)
  | item (x : Option α)
  | void
  deriving DecidableEq

/-- The list and the iterators passed are allocated, and `malloc` returns free addresses. -/
def legal (w : World α) : Op α → Prop
  | .insert _ addr => w.list.isSome ∧ addr ∉ w.nodes.dom
  | .remove _ => w.list.isSome
  | .destroy => w.list.isSome
  | .createIterator addr => w.list.isSome ∧ addr ∉ w.iterators.dom
  | .nextItem iter => iter ∈ w.iterators.dom
  | .getItem iter => iter ∈ w.iterators.dom
  | .destroyIterator iter => iter ∈ w.iterators.dom

instance (w : World α) : ∀ op, Decidable (legal w op)
  | .insert _ addr => inferInstanceAs (Decidable (w.list.isSome ∧ addr ∉ w.nodes.dom))
  | .remove _ => inferInstanceAs (Decidable (w.list.isSome = true))
  | .destroy => inferInstanceAs (Decidable (w.list.isSome = true))
  | .createIterator addr =>
    inferInstanceAs (Decidable (w.list.isSome ∧ addr ∉ w.iterators.dom))
  | .nextItem iter => inferInstanceAs (Decidable (iter ∈ w.iterators.dom))
  | .getItem iter => inferInstanceAs (Decidable (iter ∈ w.iterators.dom))
  | .destroyIterator iter => inferInstanceAs (Decidable (iter ∈ w.iterators.dom))

/-- One call. -/
def step (w : World α) : Op α → Option (World α × Answer α)
  | .insert newObj addr => do
    let (w, r) ← slInsert w newObj addr
    some (w, .int r)
  | .remove newObj => do
    let (w, r) ← slRemove w newObj
    some (w, .int r)
  | .destroy => do
    let w ← slDestroy w
    some (w, .void)
  | .createIterator addr => do
    let (w, a) ← slCreateIterator w addr
    some (w, .iter a)
  | .nextItem iter => do
    let (w, x) ← slNextItem w iter
    some (w, .item x)
  | .getItem iter => do
    let x ← slGetItem w iter
    some (w, .item x)
  | .destroyIterator iter => do
    let w ← slDestroyIterator w iter
    some (w, .void)

/-- The list and its iterators as a machine. -/
def machine (α : Type) : Machine (World α) (Op α) (Answer α) := ⟨legal, step⟩

instance (w : World α) (op : Op α) : Decidable ((machine α).legal w op) :=
  inferInstanceAs (Decidable (legal w op))

/-- The world right after `SLCreate` with a lawful comparator and a destructor. -/
def start (c : Comparator α) : World α := slCreate c.compare .func

/-! ### What a list holds -/

/-- The addresses of the nodes linked from `list->first`. -/
def World.linked (w : World α) : List ℕ := w.nodes.trail Node.next w.first

/-- The item of the node at `a`. -/
def World.item (w : World α) (a : ℕ) : Option α := (w.nodes.cell a).map Node.data

/-- The items reachable from `list->first`, in link order. -/
def World.items (w : World α) : List α := w.linked.filterMap w.item

end SortedList

end Cs214

import Cs214.Indexer.WordCount
import Cs214.Library.Chaining

/-!
# The hash table of the standalone tokenizer, as `hashtable.c` computes it

A table with chaining. `addToHashTable` puts an entry at the end of its list, also when the key is
there already, and `find` takes the first one with the key, so that of several entries the oldest
counts (`find_eq`). The hash is the sum of the characters in an `int`, which wraps around: for a
long key it may be negative, and then the array is read in front of its start. This is a fault
(`none`), and so is the end of a key that is too long for the index `i`.
-/

namespace Cs214.HashTable

open Tokenizer (CString)
open Indexer (charToInt charSum charSum_cons isascii hashed hashed_eq hashString_eq Fits
  bmod_tmod_nonneg_iff)

/-- An element of a list. -/
structure ListT where
  key : CString
  value : CString
  deriving DecidableEq, Repr

/-- The list with a new element at its end, which `listCreate` makes. -/
def addToList : List ListT → CString → CString → List ListT
  | [], key, value => [⟨key, value⟩]
  | e :: list, key, value => e :: addToList list key value

def listFind : List ListT → CString → Option CString
  | [], _ => none
  | e :: list, key => if e.key ≠ key then listFind list key else some e.value

structure HashTableT where
  size : ℕ
  lists : List (List ListT)
  deriving DecidableEq, Repr

def htCreate (size : ℕ) : HashTableT := ⟨size, List.replicate size []⟩

/-- The `int` in which `hash` sums up the characters. -/
def hashSum (key : CString) : ℤ :=
  key.foldl (fun index c => (index + charToInt c).bmod (2 ^ 32)) 0

/-- **The hash of a key**; `i` counts its characters up to the NUL in an `int`. -/
def hash (key : CString) (size : ℕ) : Option ℤ :=
  if key.length < 2 ^ 31 then some ((hashSum key).tmod size) else none

/-- `ht->lists[index]`. -/
def HashTableT.list? (ht : HashTableT) (index : ℤ) : Option (List ListT) :=
  if 0 ≤ index then ht.lists[index.toNat]? else none

def addToHashTable (ht : HashTableT) (key value : CString) : Option HashTableT := do
  let index ← hash key ht.size
  let list ← ht.list? index
  return { ht with lists := ht.lists.set index.toNat (addToList list key value) }

/-- The value of a key, or NULL. -/
def find (ht : HashTableT) (key : CString) : Option (Option CString) := do
  let index ← hash key ht.size
  let list ← ht.list? index
  return listFind list key

/-! ### Lists -/

variable {ht : HashTableT} {entries list : List ListT} {e : ListT} {key : CString}
  {size : ℕ}

private theorem addToList_eq (list : List ListT) (key value : CString) :
    addToList list key value = list ++ [⟨key, value⟩] := by
  induction list with
  | nil => rfl
  | cons e list ih => rw [addToList, ih, List.cons_append]

/-- **The first entry with a key** gives the value. -/
theorem listFind_eq (list : List ListT) (key : CString) :
    listFind list key = (list.find? fun e => e.key = key).map ListT.value := by
  induction list with
  | nil => rfl
  | cons e list ih =>
    rw [listFind, List.find?_cons]
    by_cases h : e.key = key
    · rw [if_neg (not_not.mpr h), decide_eq_true h]
      rfl
    · rw [if_pos h, ih, decide_eq_false h]

/-! ### The hash -/

/-- The hash of a key selects a list. -/
def Placed (size : ℕ) (key : CString) : Prop :=
  key.length < 2 ^ 31 ∧ 0 ≤ (hashSum key).tmod size

instance : Decidable (Placed size key) := inferInstanceAs (Decidable (_ ∧ _))

/-- The list of a key. -/
def place (size : ℕ) (key : CString) : ℕ := ((hashSum key).tmod size).toNat

private theorem place_lt (hsize : 0 < size) : place size key < size := by
  have hlt := Int.tmod_lt_of_pos (hashSum key) (Int.natCast_pos.mpr hsize)
  rw [place]
  omega

/-- The sum is that of `hash_string` in the indexer. -/
private theorem hashSum_eq (hascii : ∀ c ∈ key, isascii c) (hlength : key.length < 2 ^ 31) :
    hashSum key = (charSum key : ℤ).bmod (2 ^ 32) := by
  have h : hashSum (hashed key) = (charSum (hashed key) : ℤ).bmod (2 ^ 32) := hashString_eq hascii
  rwa [hashed_eq hlength] at h

/-- **A key of ASCII characters is placed** if the sum of them does not wrap around to a negative
hash, or to one that the size divides. -/
theorem placed_iff (hascii : ∀ c ∈ key, isascii c) (hlength : key.length < 2 ^ 31) :
    Placed size key ↔ Fits size (charSum key) := by
  rw [Placed, and_iff_right hlength, hashSum_eq hascii hlength]
  exact bmod_tmod_nonneg_iff size _

theorem charSum_le (hascii : ∀ c ∈ key, isascii c) : charSum key ≤ 127 * key.length := by
  induction key with
  | nil => exact Nat.zero_le _
  | cons c key ih =>
    obtain ⟨hc, hkey⟩ := List.forall_mem_cons.mp hascii
    have hle := ih hkey
    rw [isascii] at hc
    rw [charSum_cons, List.length_cons]
    omega

/-- Short keys are placed. -/
theorem placed_of_length (hascii : ∀ c ∈ key, isascii c) (hlength : key.length ≤ 2 ^ 24) :
    Placed size key := by
  have hle := charSum_le hascii
  exact (placed_iff hascii (by omega)).mpr (.inl (by omega))

instance (size : ℤ) (sum : ℕ) : Decidable (Fits size sum) := inferInstanceAs (Decidable (_ ∨ _))

/-! ### Tables -/

/-- **The table holds these entries**, which were added in this order. -/
structure HashTableT.Holds (ht : HashTableT) (entries : List ListT) : Prop where
  pos : 0 < ht.size
  lists : ht.lists = chains ListT.key (place ht.size) ht.size entries

theorem holds_htCreate (hsize : 0 < size) : (htCreate size).Holds [] :=
  ⟨hsize, (chains_nil _ _).symm⟩

/-- What a key comes to. -/
private theorem list?_eq (h : ht.Holds entries) (hp : Placed ht.size key) :
    hash key ht.size = some ((hashSum key).tmod ht.size) ∧
      ht.list? ((hashSum key).tmod ht.size) =
        some (chain ListT.key (place ht.size) entries (place ht.size key)) := by
  refine ⟨if_pos hp.1, ?_⟩
  rw [HashTableT.list?, if_pos hp.2, h.lists]
  exact getElem?_chains _ _ (place_lt h.pos)

/-- **Another entry.** -/
theorem addToHashTable_eq (h : ht.Holds entries) (hp : Placed ht.size key) (value : CString) :
    ∃ ht', addToHashTable ht key value = some ht' ∧ ht'.size = ht.size ∧
      ht'.Holds (entries ++ [⟨key, value⟩]) := by
  obtain ⟨hhash, hlist⟩ := list?_eq h hp
  refine ⟨{ ht with lists := ht.lists.set (place ht.size key) (addToList (chain ListT.key
    (place ht.size) entries (place ht.size key)) key value) }, ?_, rfl, h.pos, ?_⟩
  · simp only [addToHashTable, hhash, hlist, Option.bind_eq_bind, Option.bind_some,
      Option.pure_def]
    rfl
  · rw [addToList_eq, chains_append, h.lists]

/-- **What is found**: the value of the first entry with the key. A key without a place is not
looked for in the array at all. -/
theorem find_eq (h : ht.Holds entries) : find ht key =
    if Placed ht.size key then
      some ((entries.find? fun e => e.key = key).map ListT.value)
    else none := by
  split_ifs with hp
  · obtain ⟨hhash, hlist⟩ := list?_eq h hp
    simp only [find, hhash, hlist, Option.bind_eq_bind, Option.bind_some, Option.pure_def,
      listFind_eq, find?_chain]
  · rw [find, hash]
    split_ifs with hlength
    · have hneg : ¬0 ≤ (hashSum key).tmod ht.size := fun hpos => hp ⟨hlength, hpos⟩
      simp [HashTableT.list?, hneg]
    · rfl

/-- The entries of an array are added in a loop. -/
def addEntries (ht : HashTableT) (entries : List ListT) : Option HashTableT :=
  entries.foldlM (fun ht e => addToHashTable ht e.key e.value) ht

theorem addEntries_eq (h : ht.Holds entries) (hp : ∀ e ∈ list, Placed ht.size e.key) :
    ∃ ht', addEntries ht list = some ht' ∧ ht'.size = ht.size ∧ ht'.Holds (entries ++ list) := by
  induction list generalizing ht entries with
  | nil => exact ⟨ht, rfl, rfl, by rwa [List.append_nil]⟩
  | cons e list ih =>
    obtain ⟨he, hlist⟩ := List.forall_mem_cons.mp hp
    obtain ⟨ht₁, hadd, hsize, h₁⟩ := addToHashTable_eq h he e.value
    obtain ⟨ht₂, hadds, hsize', h₂⟩ := ih h₁ (hsize ▸ hlist)
    refine ⟨ht₂, ?_, hsize'.trans hsize, by simpa using h₂⟩
    rw [addEntries, List.foldlM_cons, hadd]
    exact hadds

end Cs214.HashTable

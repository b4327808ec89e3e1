import Cs214.EnhancedMalloc.Blocks
import Cs214.Library.Abstraction

/-!
# The heap as a first-fit allocator of blocks

The client of the heap sees addresses and reports. This file says what the heap is for without its
memory: the state `Held` is the set of blocks held, `customMalloc` answers the lowest address at
which the block fits between them, and `customFree` takes a block out of the set, or says what is
wrong with the address. Headers, splits, merges and the order of earlier calls do not appear in it.

`heap_is_firstFit` says that nobody who makes calls and reads the answers can tell the heap from
this allocator, apart from the place of an earlier release that the report on a redundant one
names: both have the same dialogues, and they end with the same blocks held.
-/

namespace Cs214.EnhancedMalloc

open Chunk

variable {A : Arena} {s s' : Config} {h h' : Heap} {n size data file : ℕ} {callerLine : ℤ}
  {cs l₁ l₂ : List Chunk} {r : Report} {op : Op}

/-! ### The allocator of blocks -/

/-- Whether `customMalloc` has been called, and the blocks held. -/
structure Held where
  started : Bool
  live : Finset (ℕ × ℕ)
  deriving DecidableEq

/-- The address `customMalloc` answers: the lowest at which the block fits, or null. -/
def Held.place (A : Arena) (t : Held) (size : ℕ) : ℕ :=
  firstFit entrySize A.addr (A.addr + heapSize) t.live size

/-- What is wrong with the address of a call of `customFree` that frees nothing. -/
def Held.refusal (A : Arena) (t : Held) (data : ℕ) : HeapError :=
  if t.started then
    if ∃ a ∈ headers entrySize A.addr (A.addr + heapSize) t.live, a + entrySize = data then
      .freeRedundant
    else if Inner entrySize A.addr (A.addr + heapSize) t.live data then .freeMiddle
    else .freeNotAllocated
  else .freeNotAllocated

/-- The calls a client may make. -/
def Held.legal (t : Held) : Op → Prop
  | .malloc size file callerLine =>
    size < 2 ^ 32 ∧ file < 2 ^ 64 ∧ -2 ^ 31 ≤ callerLine ∧ callerLine < 2 ^ 31
  | .free data file callerLine =>
    data < 2 ^ 64 ∧ file < 2 ^ 64 ∧ -2 ^ 31 ≤ callerLine ∧ callerLine < 2 ^ 31
  | .write addr _ => ∃ b ∈ t.live, b.1 ≤ addr ∧ addr < b.1 + b.2

/-- What a call does to the blocks held, and its answer. -/
def Held.step (A : Arena) (t : Held) : Op → Held × Answer
  | .malloc size file callerLine =>
    if t.place A size = 0 then
      (⟨true, t.live⟩, .pointer 0 (some (errorReport file callerLine .mallocInsufficient 0)))
    else (⟨true, insert (t.place A size, size) t.live⟩, .pointer (t.place A size) none)
  | .free data file callerLine =>
    if ∃ b ∈ t.live, b.1 = data then
      (⟨t.started, t.live.filter fun b => b.1 ≠ data⟩, .freed none)
    else (t, .freed (some (errorReport file callerLine (t.refusal A data) data)))
  | .write _ _ => (t, .written)

/-- **The allocator of blocks** as a machine. -/
def blockMachine (A : Arena) : Machine Held Op Answer :=
  ⟨Held.legal, fun t op => some (t.step A op)⟩

/-- The second of two blocks fits behind the first one, and into its place once that is free. -/
example : Held.place lowArena ⟨true, {(4136, 100)}⟩ 20 = 4276 ∧
    Held.place lowArena ⟨true, {(4276, 20)}⟩ 20 = 4136 ∧
    Held.place lowArena ⟨true, {(4276, 20)}⟩ 100 = 4336 := by decide

/-- The blocks held in a state of the heap. -/
def Config.held (s : Config) : Held := ⟨s.heap.initialized, s.live.toFinset⟩

/-- An answer without the place of the earlier release that a redundant call is told about. -/
def Answer.said : Answer → Answer
  | .freed (some r) => .freed (some { r with freedAt := none })
  | out => out

/-! ### `customMalloc` -/

/-- The blocks held are the blocks of the chunks. -/
private theorem mem_held_iff (hlive : s.live.Perm (blocks entrySize cs)) (b : ℕ × ℕ) :
    b ∈ s.held.live ↔ b ∈ blocks entrySize cs := by
  rw [Config.held, List.mem_toFinset, hlive.mem_iff]

/-- **The first fit.** `customMalloc` answers the lowest address at which the block fits. -/
theorem step_malloc (hv : Valid A s) (hsize : size < 2 ^ 32) (file : ℕ) (callerLine : ℤ) :
    ∃ s' r, step A s (.malloc size file callerLine) = some (s', r) ∧
      s.held.step A (.malloc size file callerLine) = (s'.held, r.said) := by
  obtain ⟨h₁, cs, hens, hL, hco, hlive⟩ := hv.ensureInit
  have hplace : s.held.place A size = _ :=
    firstFit_eq (by decide) hL.tiles hco (mem_held_iff hlive) (n := size)
  have hL' : Layout A h₁ ([] ++ cs) := hL
  have hloop := mallocLoop_find hL' hL.length_lt hsize
  rw [hL.firstAddr_eq] at hloop
  cases hfind : cs.find? (takes entrySize size) with
  | none =>
    rw [hfind] at hloop hplace
    have hzero : s.held.place A size = 0 := hplace
    refine ⟨⟨h₁, s.live⟩, .pointer 0 (some (errorReport file callerLine .mallocInsufficient 0)),
      ?_, ?_⟩
    · simp [step, customMalloc, hens, hloop]
    · rw [Held.step, if_pos hzero]
      simp [Config.held, hL.initialized, Answer.said]
  | some c =>
    rw [hfind] at hloop hplace
    obtain ⟨htakes, l₁, l₂, rfl, -⟩ := List.find?_eq_some_iff_append.mp hfind
    obtain ⟨h', hsplit, hsplit', -⟩ := splitEntry_spec hL (takes_iff.mp htakes).2
    have haddr : s.held.place A size = c.addr + entrySize := hplace
    have hne : c.addr + entrySize ≠ 0 := by
      have := (hL.holdsEntry (c := c) (by simp)).ne_zero
      omega
    dsimp only at hloop
    refine ⟨⟨h', (c.addr + entrySize, size) :: s.live⟩, .pointer (c.addr + entrySize) none, ?_, ?_⟩
    · rw [hsplit] at hloop
      simp only [step, customMalloc, hens, hloop, Option.bind_eq_bind, Option.bind_some,
        if_neg hne]
    · rw [Held.step, haddr, if_neg hne]
      simp [Config.held, hsplit'.initialized, Answer.said]

/-! ### `customFree` -/

/-- What the loop of `customFree` says of an address when it frees nothing. -/
def refusalAt (cs : List Chunk) (data : ℕ) : HeapError :=
  if ∃ c ∈ cs, c.addr + entrySize = data then .freeRedundant
  else if ∃ c ∈ cs, c.addr + entrySize < data ∧ data < c.addr + entrySize + c.size then .freeMiddle
  else .freeNotAllocated

/-- **The loop of `customFree`** says what is wrong with the address. -/
theorem freeLoop_refusal (hL : Layout A h (l₁ ++ l₂)) (hn : l₂.length < n)
    (hrun : freeLoop A data file callerLine n h (firstAddr l₂ 0) = some (h', some r)) :
    { r with freedAt := none } = errorReport file callerLine (refusalAt l₂ data) data := by
  have hentry : entrySize = 40 := rfl
  induction l₂ generalizing l₁ n with
  | nil =>
    obtain ⟨n, rfl⟩ := Nat.exists_eq_succ_of_ne_zero (by omega : n ≠ 0)
    simp only [freeLoop, firstAddr, if_true, Option.some.injEq, Prod.mk.injEq] at hrun
    rw [← hrun.2]
    simp [refusalAt, errorReport]
  | cons c l₂ ih =>
    obtain ⟨n, rfl⟩ := Nat.exists_eq_succ_of_ne_zero (by omega : n ≠ 0)
    rw [firstAddr, freeLoop_step hL] at hrun
    have hbehind : ∀ d ∈ l₂, c.addr + entrySize + c.size ≤ d.addr := fun d hd => hL.tiles.behind hd
    by_cases hmid : c.addr + entrySize < data ∧ data < c.addr + entrySize + c.size
    · -- inside of the chunk, so at the start of no other
      have hno : ¬∃ d ∈ c :: l₂, d.addr + entrySize = data := by
        rintro ⟨d, hd, rfl⟩
        rcases List.mem_cons.mp hd with rfl | hd
        · omega
        · have := hbehind d hd
          omega
      rw [if_pos hmid, Option.some.injEq, Prod.mk.injEq, Option.some.injEq] at hrun
      rw [← hrun.2, refusalAt, if_neg hno, if_pos ⟨c, List.mem_cons_self, hmid⟩]
      rfl
    · rw [if_neg hmid] at hrun
      by_cases hoff : c.addr + entrySize = data
      · rw [if_pos hoff] at hrun
        rw [refusalAt, if_pos ⟨c, List.mem_cons_self, hoff⟩]
        cases hfree : c.free with
        | false => simp [hfree] at hrun
        | true =>
          rw [if_pos hfree, Option.some.injEq, Prod.mk.injEq, Option.some.injEq] at hrun
          rw [← hrun.2]
          rfl
      · rw [if_neg hoff] at hrun
        have hL' : Layout A h ((l₁ ++ [c]) ++ l₂) := by simpa using hL
        have hsame : refusalAt (c :: l₂) data = refusalAt l₂ data := by
          simp only [refusalAt, List.exists_mem_cons_iff, hoff, hmid, false_or]
        rw [ih hL' (by simpa using hn) hrun, hsame]

/-- The blocks held tell what `customFree` says. -/
private theorem refusal_eq (hL : Layout A s.heap cs) (hco : Coalesced cs)
    (hlive : s.live.Perm (blocks entrySize cs)) (data : ℕ) :
    s.held.refusal A data = refusalAt cs data := by
  have hstarted : s.held.started = true := hL.initialized
  have hheader : (∃ a ∈ headers entrySize A.addr (A.addr + heapSize) s.held.live,
      a + entrySize = data) ↔ ∃ c ∈ cs, c.addr + entrySize = data := by
    simp only [mem_headers_iff (by decide) hL.tiles hco (mem_held_iff hlive), List.mem_map,
      exists_exists_and_eq_and]
  rw [Held.refusal, if_pos hstarted, refusalAt]
  simp only [hheader, inner_iff (by decide) hL.tiles hco (mem_held_iff hlive)]

/-- **`customFree`** takes a block held out of the set, and says of every other address what is
wrong with it. -/
theorem step_release (hv : Valid A s) (data file : ℕ) (callerLine : ℤ) :
    ∃ s' r, step A s (.free data file callerLine) = some (s', r) ∧
      s.held.step A (.free data file callerLine) = (s'.held, r.said) := by
  cases hv with
  | fresh hi hlive =>
    refine ⟨s, .freed (some (errorReport file callerLine .freeNotAllocated data)), ?_, ?_⟩
    · simp [step, customFree, hi]
    · simp [Held.step, Config.held, hlive, Held.refusal, hi, Answer.said, errorReport]
  | laidOut cs hL hco hlive =>
    have hheld : (∃ b ∈ s.held.live, b.1 = data) ↔
        ∃ c ∈ cs, c.free = false ∧ data = c.addr + entrySize := by
      simp only [mem_held_iff hlive, mem_blocks]
      constructor
      · rintro ⟨_, ⟨c, hc, hused, rfl⟩, rfl⟩
        exact ⟨c, hc, hused, rfl⟩
      · rintro ⟨c, hc, hused, rfl⟩
        exact ⟨_, ⟨c, hc, hused, rfl⟩, rfl⟩
    rcases customFree_spec hL data file callerLine with
      ⟨l₁, c, l₂, h', rfl, hused, hdata, hrun, hL', -⟩ | ⟨r, hrun, hrej⟩
    · refine ⟨⟨h', s.live.filter fun b => b.1 ≠ data⟩, .freed none, by simp [step, hrun], ?_⟩
      rw [Held.step, if_pos (hheld.mpr ⟨c, by simp, hused, hdata⟩)]
      simp [Config.held, hL.initialized, hL'.initialized, List.toFinset_filter, Answer.said]
    · refine ⟨s, .freed (some r), by simp [step, hrun], ?_⟩
      have hnot : ¬∃ b ∈ s.held.live, b.1 = data := fun hmem => by
        obtain ⟨c, hc, hused, hdata⟩ := hheld.mp hmem
        exact hrej.used c hc hused hdata
      have hL' : Layout A s.heap ([] ++ cs) := hL
      rw [customFree, if_pos hL.initialized, ← hL.firstAddr_eq] at hrun
      rw [Held.step, if_neg hnot, refusal_eq hL hco hlive, Answer.said,
        freeLoop_refusal hL' hL.length_lt hrun]

/-! ### The two machines -/

/-- **The blocks held abstract the heap.** -/
theorem abstracts (A : Arena) :
    Abstracts (machine A) (blockMachine A) (Valid A) Config.held Answer.said where
  legal {s op} _ := by
    cases op with
    | malloc | free => exact Iff.rfl
    | write => simp [machine, blockMachine, legal, Held.legal, Config.held]
  step {s op} hv hl := by
    have hmatch : ∃ s' r, step A s op = some (s', r) ∧ s.held.step A op = (s'.held, r.said) := by
      cases op with
      | malloc size file callerLine => exact step_malloc hv hl.1 file callerLine
      | free data file callerLine => exact step_release hv data file callerLine
      | write addr byte => exact ⟨_, _, rfl, rfl⟩
    obtain ⟨s', r, hstep, habs⟩ := hmatch
    have hocc : Event.Occurs (machine A) ⟨s, op, r, s'⟩ := ⟨hl, hstep⟩
    exact ⟨s', r, hstep, (Effect.of_occurs hocc hv).valid hv, congrArg some habs⟩

/-- **The heap is a first-fit allocator of blocks.** What a client can hear from the heap, in any
sequence of calls, is what it can hear from the allocator of blocks, and the blocks held in the end
are the same. -/
theorem heap_is_firstFit (A : Arena) (t : Held) (l : List (Op × Answer)) :
    (∃ tr s, Run (machine A) (start A) tr s ∧ s.held = t ∧ Event.dialogue Answer.said tr = l) ↔
      ∃ tr, Run (blockMachine A) ⟨false, ∅⟩ tr t ∧ Event.dialogue id tr = l :=
  (abstracts A).dialogue_iff (.fresh rfl rfl) t l

end Cs214.EnhancedMalloc

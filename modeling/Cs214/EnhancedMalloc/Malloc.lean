import Cs214.EnhancedMalloc.Layout
import Cs214.Library.FirstFit

/-!
# `customMalloc`

The loop finds the first free chunk with room for the data and one more header, and splits
it. `splits` sums up the stores of the split and `Layout.split` shows that the headers then
encode the chunks of `Chunk.split`; `customMalloc_spec` is the specification of the call.
-/

namespace Cs214.EnhancedMalloc

variable {A : Arena} {h h' : Heap} {a b n p q size : ℕ} {c d : Chunk}
  {cs l l₁ l₂ : List Chunk}

/-- `if (q != NULL) q->prev = b`. -/
def Heap.linkBack (h : Heap) (q b : ℕ) : Heap := if q = 0 then h else h.setField q .prev b

@[simp] theorem linkBack_head (h : Heap) (q b : ℕ) : (h.linkBack q b).head = h.head := by
  unfold Heap.linkBack
  split <;> rfl

@[simp] theorem linkBack_initialized (h : Heap) (q b : ℕ) :
    (h.linkBack q b).initialized = h.initialized := by
  unfold Heap.linkBack
  split <;> rfl

theorem linkBack_eq (hq : q ≠ 0 → A.HoldsEntry q) :
    h.storePrevIfAny A q b = some (h.linkBack q b) := by
  unfold Heap.linkBack Heap.storePrevIfAny
  by_cases hq0 : q = 0
  · simp [hq0]
  · simp [hq0, store_eq (hq hq0)]

theorem entry_linkBack_of_apart (hq : q ≠ 0 → a + entrySize ≤ q ∨ q + entrySize ≤ a) (b : ℕ) :
    (h.linkBack q b).entry a = h.entry a := by
  unfold Heap.linkBack
  split
  · rfl
  · rename_i hq0
    exact entry_setField_of_apart (hq hq0) _ _

/-- The new link of the entry at `q`. -/
theorem entry_linkBack_self (hq : q ≠ 0) (hb : b < 2 ^ 64) :
    (h.linkBack q b).entry q = { h.entry q with prev := b } := by
  rw [Heap.linkBack, if_neg hq, entry_setField_self, MemEntry.set_prev _ hb]

/-- **The effect of a split**: the entry at `a` keeps `n` bytes and is used, the new entry at
`b` takes the rest, and the entry at `q` behind them is linked back to `b`. -/
structure Splits (h h' : Heap) (a b n rest q : ℕ) : Prop extends
    Relinks h h' a (b + entrySize) b q where
  used : h'.entry a = { h.entry a with next := b, isFree := 0, size := n }
  free : h'.entry b = { h.entry b with prev := a, next := q, isFree := 1, size := rest }

/-- The stores of a split. -/
private theorem splits {k : Heap} {rest : ℕ} (hab : a + entrySize ≤ b)
    (hbq : q ≠ 0 → b + entrySize ≤ q) (hb : b < 2 ^ 64) (hq : q < 2 ^ 64) (hn : n < 2 ^ 32)
    (hrest : rest < 2 ^ 32)
    (hk : k = ((h.setField b .prev a).setField b .next q).setField a .next b) :
    Splits h (((((k.linkBack q b).setField b .isFree 1).setField b .size rest).setField a
      .isFree 0).setField a .size n) a b n rest q := by
  have haq : q ≠ 0 → a + entrySize ≤ q := fun hq0 => by
    have := hbq hq0
    omega
  refine ⟨⟨by simp [hk], by simp [hk], fun hq0 => ?_, fun d hd hdq => ?_⟩, ?_, ?_⟩
  · have haq := haq hq0
    have hbq := hbq hq0
    rw [entry_setField_of_apart (.inr haq), entry_setField_of_apart (.inr haq),
      entry_setField_of_apart (.inr hbq), entry_setField_of_apart (.inr hbq),
      entry_linkBack_self hq0 hb, hk, entry_setField_of_apart (.inr haq),
      entry_setField_of_apart (.inr hbq), entry_setField_of_apart (.inr hbq)]
  · have hda : d + entrySize ≤ a ∨ a + entrySize ≤ d := by omega
    have hdb : d + entrySize ≤ b ∨ b + entrySize ≤ d := by omega
    rw [entry_setField_of_apart hda, entry_setField_of_apart hda, entry_setField_of_apart hdb,
      entry_setField_of_apart hdb, entry_linkBack_of_apart hdq, hk, entry_setField_of_apart hda,
      entry_setField_of_apart hdb, entry_setField_of_apart hdb]
  · rw [entry_setField_self, entry_setField_self, entry_setField_of_apart (.inl hab),
      entry_setField_of_apart (.inl hab), entry_linkBack_of_apart fun hq0 => .inl (haq hq0), hk,
      entry_setField_self, entry_setField_of_apart (.inl hab), entry_setField_of_apart (.inl hab),
      MemEntry.set_next _ hb, MemEntry.set_isFree _ (by omega), MemEntry.set_size _ hn]
  · rw [entry_setField_of_apart (.inr hab), entry_setField_of_apart (.inr hab),
      entry_setField_self, entry_setField_self, entry_linkBack_of_apart fun hq0 => .inl (hbq hq0),
      hk, entry_setField_of_apart (.inr hab), entry_setField_self, entry_setField_self,
      MemEntry.set_prev _ (by omega), MemEntry.set_next _ hq, MemEntry.set_isFree _ (by omega),
      MemEntry.set_size _ hrest]

/-- A split in the layout. -/
private theorem Layout.split (hL : Layout A h (l₁ ++ c :: l₂)) (hn : n + entrySize ≤ c.size)
    (hs : Splits h h' c.addr (c.addr + entrySize + n) n (c.size - n - entrySize)
      (firstAddr l₂ 0)) :
    Layout A h' (l₁ ++ c.split entrySize n ++ l₂) := by
  have hdesc := hL.describes
  have hlast : lastAddr (l₁ ++ c.split entrySize n) 0 = c.addr + entrySize + n := by
    simp [lastAddr, Chunk.split]
  have hL' : Layout A h (l₁ ++ [c] ++ l₂) := by simpa using hL
  refine hL'.exchange (by omega) (fun d hd => ?_) (fun d hd => ?_) (hlast.symm ▸ hs.toRelinks) rfl
    (hL.tiles.split hn) ⟨?_, ?_, trivial⟩
  · have := hL.tiles.before hd
    omega
  · have := hL.tiles.behind hd
    omega
  · rw [hs.used]
    exact ⟨hdesc.prev, rfl, rfl, rfl⟩
  · rw [hs.free]
    exact ⟨rfl, rfl, rfl, rfl⟩

/-- A split keeps the records. -/
private theorem Layout.split_record (hL : Layout A h (l₁ ++ c :: l₂)) (hn : n + entrySize ≤ c.size)
    (hs : Splits h h' c.addr (c.addr + entrySize + n) n (c.size - n - entrySize)
      (firstAddr l₂ 0)) (ha : a ∈ (l₁ ++ c :: l₂).map Chunk.addr) : h'.record a = h.record a := by
  have hnext := hL.apart_next ha
  obtain ⟨d, hd, rfl⟩ := List.mem_map.mp ha
  rcases List.mem_append.mp hd with hd | hd
  · have := hL.tiles.before hd
    exact hs.toRelinks.record (.inl (by omega)) hnext
  · rcases List.mem_cons.mp hd with rfl | hd
    · rw [Heap.record, hs.used, Heap.record]
    · have := hL.tiles.behind hd
      exact hs.toRelinks.record (.inr (by omega)) hnext

/-- **Splitting an entry.** -/
theorem splitEntry_spec (hL : Layout A h (l₁ ++ c :: l₂)) (hn : n + entrySize ≤ c.size) :
    ∃ h', splitEntry A n h c.addr = some (h', c.addr + entrySize) ∧
      Layout A h' (l₁ ++ c.split entrySize n ++ l₂) ∧
      ∀ a ∈ (l₁ ++ c :: l₂).map Chunk.addr, h'.record a = h.record a := by
  have hsize := hL.size_le (c := c) (by simp)
  have hc := hL.holdsEntry (c := c) (by simp)
  have hdesc := hL.describes
  -- the new entry, and the one behind it
  obtain ⟨N, hN⟩ : ∃ N, N = c.addr + entrySize + n := ⟨_, rfl⟩
  obtain ⟨q, hq⟩ : ∃ q, q = firstAddr l₂ 0 := ⟨_, rfl⟩
  obtain ⟨hqholds, hqc, hqlt⟩ := hL.room_of_next hq
  have hNholds : A.HoldsEntry N := by
    have := hL.tiles.bounds (c := c) (by simp)
    exact ⟨by omega, by omega⟩
  have hNlt := hNholds.lt
  have hcN : c.addr + entrySize ≤ N := by omega
  have hNq : q ≠ 0 → N + entrySize ≤ q := fun hq0 => by
    have := hqc hq0
    omega
  have hNeq : sizeT (c.addr + entrySize + n) = N := by
    have hcast : (c.addr + entrySize + n : ℤ) = (N : ℕ) := by rw [hN]; push_cast; ring
    rw [hcast, sizeT_eq (by omega)]
  have hceq : sizeT (c.addr + entrySize) = c.addr + entrySize := by
    have hcast : (c.addr + entrySize : ℤ) = (c.addr + entrySize : ℕ) := by push_cast; ring
    rw [hcast, sizeT_eq (by omega)]
  have hrem : unsigned (sizeT (unsigned (c.size - n) - entrySize)) = c.size - n - entrySize := by
    simp only [entrySize, heapSize] at hn hsize ⊢
    unfold unsigned sizeT
    omega
  -- what the loads between the stores give
  obtain ⟨k, hk⟩ : ∃ k, k = ((h.setField N .prev c.addr).setField N .next q).setField c.addr
      .next N := ⟨_, rfl⟩
  have hload₁ : (h.setField N .prev c.addr).load A c.addr .next = some q := by
    rw [load_eq hc, entry_setField_of_apart (.inl hcN)]
    exact congrArg some (hdesc.next.trans hq.symm)
  have hload₂ : k.load A N .next = some q := by
    rw [hk, load_eq hNholds, entry_setField_of_apart (.inr hcN), entry_setField_self,
      MemEntry.get_set, if_pos rfl, Nat.mod_eq_of_lt (by simpa [Field.width] using hqlt)]
  have hload₃ : ((k.linkBack q N).setField N .isFree 1).load A c.addr .size = some c.size := by
    have hcq : q ≠ 0 → c.addr + entrySize ≤ q := fun hq0 => hcN.trans (by have := hNq hq0; omega)
    rw [load_eq hc, entry_setField_of_apart (.inl hcN),
      entry_linkBack_of_apart fun hq0 => .inl (hcq hq0), hk, entry_setField_self,
      entry_setField_of_apart (.inl hcN), entry_setField_of_apart (.inl hcN)]
    exact congrArg some hdesc.size
  have hheap : heapSize < 2 ^ 32 := by decide
  have hsplits := splits hcN hNq (by omega) hqlt (show n < 2 ^ 32 by omega)
    (show c.size - n - entrySize < 2 ^ 32 by omega) hk
  obtain ⟨h', hh'⟩ : ∃ h', h' = ((((k.linkBack q N).setField N .isFree 1).setField N .size
    (c.size - n - entrySize)).setField c.addr .isFree 0).setField c.addr .size n := ⟨_, rfl⟩
  have hrun : splitEntry A n h c.addr = some (h', c.addr + entrySize) := by
    simp only [splitEntry, hNeq, hceq, store_eq hNholds, store_eq hc, Option.bind_eq_bind,
      Option.bind_some, hload₁, hload₂, ← hk, linkBack_eq hqholds, hload₃, hrem, hh']
  have hsplits' : Splits h h' c.addr (c.addr + entrySize + n) n (c.size - n - entrySize)
      (firstAddr l₂ 0) := hN ▸ hq ▸ hh' ▸ hsplits
  exact ⟨h', hrun, hL.split hn hsplits', fun a ha => hL.split_record hn hsplits' ha⟩

/-! ### The loop -/

/-- The test of the loop. -/
private theorem fits_eq (hL : Layout A h (l₁ ++ c :: l₂)) (hsize : size < 2 ^ 32) :
    fits A size h c.addr = some (decide (c.free = true ∧ size + entrySize ≤ c.size)) := by
  have hc := hL.holdsEntry (c := c) (by simp)
  have hdesc := hL.describes
  have hsum : sizeT (size + entrySize) = size + entrySize := by
    have hcast : (size + entrySize : ℤ) = (size + entrySize : ℕ) := by push_cast; ring
    have hentry : entrySize = 40 := rfl
    rw [hcast, sizeT_eq (by omega)]
  have hfree : (h.entry c.addr).get .isFree = c.free.toNat := hdesc.isFree
  have hsz : (h.entry c.addr).get .size = c.size := hdesc.size
  simp only [fits, load_eq hc, hfree, hsz, hsum, Option.bind_eq_bind, Option.bind_some]
  cases c.free <;> simp

/-- **The loop of `customMalloc`** splits the first chunk that fits. -/
theorem mallocLoop_find (hL : Layout A h (l₁ ++ l₂)) (hn : l₂.length < n) (hsize : size < 2 ^ 32) :
    mallocLoop A size n h (firstAddr l₂ 0) =
      match l₂.find? (Chunk.takes entrySize size) with
      | some c => splitEntry A size h c.addr
      | none => some (h, 0) := by
  induction l₂ generalizing l₁ n with
  | nil =>
    obtain ⟨n, rfl⟩ := Nat.exists_eq_succ_of_ne_zero (by omega : n ≠ 0)
    simp [mallocLoop, firstAddr]
  | cons c l₂ ih =>
    obtain ⟨n, rfl⟩ := Nat.exists_eq_succ_of_ne_zero (by omega : n ≠ 0)
    have hc := hL.holdsEntry (c := c) (by simp)
    have hnext : (h.entry c.addr).get .next = firstAddr l₂ 0 := hL.describes.next
    have hstep : mallocLoop A size (n + 1) h (firstAddr (c :: l₂) 0)
        = if c.free = true ∧ size + entrySize ≤ c.size then splitEntry A size h c.addr
          else mallocLoop A size n h (firstAddr l₂ 0) := by
      simp only [mallocLoop, firstAddr, hc.ne_zero, if_false, fits_eq hL hsize, load_eq hc, hnext,
        Option.bind_eq_bind, Option.bind_some, decide_eq_true_eq]
    by_cases hfit : c.free = true ∧ size + entrySize ≤ c.size
    · rw [hstep, if_pos hfit, List.find?_cons_of_pos (Chunk.takes_iff.mpr hfit)]
    · have hL' : Layout A h ((l₁ ++ [c]) ++ l₂) := by simpa using hL
      rw [hstep, if_neg hfit, ih hL' (by simpa using hn),
        List.find?_cons_of_neg (mt Chunk.takes_iff.mp hfit)]

/-- A chunk that fits is found, or there is none. -/
private theorem mallocLoop_spec (hL : Layout A h (l₁ ++ l₂)) (hn : l₂.length < n)
    (hsize : size < 2 ^ 32) :
    (∃ k₁ c k₂, l₂ = k₁ ++ c :: k₂ ∧ c.free = true ∧ size + entrySize ≤ c.size ∧
      mallocLoop A size n h (firstAddr l₂ 0) = splitEntry A size h c.addr) ∨
    (mallocLoop A size n h (firstAddr l₂ 0) = some (h, 0) ∧
      ∀ c ∈ l₂, c.free = true → c.size < size + entrySize) := by
  rw [mallocLoop_find hL hn hsize]
  cases hfind : l₂.find? (Chunk.takes entrySize size) with
  | none =>
    refine .inr ⟨rfl, fun c hc hfree => ?_⟩
    have hnot := List.find?_eq_none.mp hfind c hc
    rw [Chunk.takes_iff, not_and, Nat.not_le] at hnot
    exact hnot hfree
  | some c =>
    obtain ⟨htakes, k₁, k₂, hsplit, -⟩ := List.find?_eq_some_iff_append.mp hfind
    obtain ⟨hfree, hfit⟩ := Chunk.takes_iff.mp htakes
    exact .inl ⟨k₁, c, k₂, hsplit, hfree, hfit, rfl⟩

/-! ### The call -/

/-- The chunk of a heap that has just been initialized. -/
def wholeChunk (A : Arena) : Chunk := ⟨A.addr, heapSize - entrySize, true⟩

/-- **The initialization of the head.** -/
theorem initHead_spec (A : Arena) (h : Heap) :
    ∃ h', initHead A h = some h' ∧ Layout A h' [wholeChunk A] := by
  have hhead : A.HoldsEntry A.addr := ⟨le_rfl, by simp [entrySize, heapSize]⟩
  have hsize : unsigned (sizeT (heapSize - entrySize)) = heapSize - entrySize := by decide
  let h₁ : Heap := (((((({ h with head := A.addr } : Heap).setField A.addr .prev 0).setField A.addr
    .next 0).setField A.addr .isFree 1).setField A.addr .fileFree 0).setField A.addr
    .lineFree 0).setField A.addr .size (heapSize - entrySize)
  have hrun : initHead A h = some { h₁ with initialized := true } := by
    simp only [initHead, store_eq hhead, setField_head, hsize, Option.bind_eq_bind,
      Option.bind_some, h₁]
  have hentry : ({ h₁ with initialized := true } : Heap).entry A.addr = h₁.entry A.addr := rfl
  refine ⟨_, hrun, ⟨rfl, rfl, ⟨rfl, ?_⟩, ⟨?_, trivial⟩⟩⟩
  · simp only [Chunk.Tiles, wholeChunk, heapSize, entrySize]
  · simp only [wholeChunk, hentry, h₁, entry_setField_self]
    exact ⟨rfl, rfl, rfl, rfl⟩

/-- An initialized heap is not touched. -/
theorem ensureInit_of_layout (hL : Layout A h cs) : ensureInit A h = some h := by
  rw [ensureInit, if_pos hL.initialized]

/-- The first lines of `customMalloc` on a heap that is not initialized. -/
theorem ensureInit_of_not (hi : h.initialized = false) :
    ∃ h₁, ensureInit A h = some h₁ ∧ Layout A h₁ [wholeChunk A] := by
  obtain ⟨h₁, hrun, hL⟩ := initHead_spec A h
  exact ⟨h₁, by simp [ensureInit, hi, hrun], hL⟩

/-- **`customMalloc`** on a heap that is `h₁` once it is initialized: the first chunk that fits
is split and its data address answered, or null is answered and nothing is written. The records
of releases stay. -/
theorem customMalloc_spec {h₁ : Heap} (hens : ensureInit A h = some h₁) (hL : Layout A h₁ cs)
    (hsize : size < 2 ^ 32) (file : ℕ) (callerLine : ℤ) :
    (∃ l₁ c l₂ h', cs = l₁ ++ c :: l₂ ∧ c.free = true ∧ size + entrySize ≤ c.size ∧
      customMalloc A h size file callerLine = some (h', c.addr + entrySize, none) ∧
      Layout A h' (l₁ ++ c.split entrySize size ++ l₂) ∧
      ∀ a ∈ cs.map Chunk.addr, h'.record a = h₁.record a) ∨
    (customMalloc A h size file callerLine
        = some (h₁, 0, some (errorReport file callerLine .mallocInsufficient 0)) ∧
      ∀ c ∈ cs, c.free = true → c.size < size + entrySize) := by
  have hL' : Layout A h₁ ([] ++ cs) := hL
  rcases mallocLoop_spec hL' hL.length_lt hsize with
    ⟨l₁, c, l₂, rfl, hfree, hfit, hrun⟩ | ⟨hrun, hnone⟩
  · obtain ⟨h', hsplit, hL'', hrecord⟩ := splitEntry_spec hL hfit
    refine .inl ⟨l₁, c, l₂, h', rfl, hfree, hfit, ?_, hL'', hrecord⟩
    rw [hL.firstAddr_eq, hsplit] at hrun
    have hne : c.addr + entrySize ≠ 0 := by
      have := (hL.holdsEntry (c := c) (by simp)).ne_zero
      omega
    simp only [customMalloc, hens, hrun, Option.bind_eq_bind, Option.bind_some, if_neg hne]
  · rw [hL.firstAddr_eq] at hrun
    exact .inr ⟨by simp [customMalloc, hens, hrun], hnone⟩

end Cs214.EnhancedMalloc

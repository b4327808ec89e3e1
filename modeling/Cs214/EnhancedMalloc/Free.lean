import Cs214.EnhancedMalloc.Malloc

/-!
# `customFree`

The entry found is marked free and merged with its free neighbours. The two merges of the
source write the same thing in different orders (`Merges`): the first of two entries grows
over the second one and is linked to the entry behind it. `freeEntry_spec` composes them to
`Chunk.release`, and `customFree_spec` is the specification of the call: it frees exactly the
address behind the header of a used entry, and otherwise writes nothing.
-/

namespace Cs214.EnhancedMalloc

variable {A : Arena} {h h' : Heap} {a n : ℕ} {b c d t : Chunk} {cs l₀ l₁ l₂ : List Chunk}

/-- The test `p != NULL && p->isFree` on an entry. -/
private theorem isFreeIfAny_eq (hL : Layout A h (l₁ ++ c :: l₂)) :
    h.isFreeIfAny A c.addr = some c.free := by
  have hc := hL.holdsEntry (c := c) (by simp)
  have hfree : (h.entry c.addr).get .isFree = c.free.toNat := hL.describes.isFree
  rw [Heap.isFreeIfAny, if_neg hc.ne_zero, load_eq hc, hfree]
  cases c.free <;> rfl

/-- No entry is not a free one. -/
private theorem isFreeIfAny_zero (A : Arena) (h : Heap) : h.isFreeIfAny A 0 = some false := rfl

/-- **The effect of a merge**: the entry at `b` takes over the room and the link of the next
entry, and the entry behind them is linked back to `b`. -/
structure Merges (h h' : Heap) (b size q : ℕ) : Prop where
  initialized : h'.initialized = h.initialized
  head : h'.head = h.head
  entry : h'.entry b = { h.entry b with size := size, next := q }
  back : q ≠ 0 → h'.entry q = { h.entry q with prev := b }
  other : ∀ a, (a + entrySize ≤ b ∨ b + entrySize ≤ a) →
    (q ≠ 0 → a + entrySize ≤ q ∨ q + entrySize ≤ a) → h'.entry a = h.entry a

/-- The stores of the merge with the previous chunk. -/
private theorem merges_prev (h : Heap) {b size q : ℕ} (hsize : size < 2 ^ 32) (hq : q < 2 ^ 64)
    (hb : b < 2 ^ 64) (hbq : q ≠ 0 → b + entrySize ≤ q) :
    Merges h (((h.setField b .size size).linkBack q b).setField b .next q) b size q := by
  refine ⟨by simp, by simp, ?_, fun hq0 => ?_, fun a hab haq => ?_⟩
  · rw [entry_setField_self, entry_linkBack_of_apart fun hq0 => .inl (hbq hq0),
      entry_setField_self, MemEntry.set_size _ hsize, MemEntry.set_next _ hq]
  · rw [entry_setField_of_apart (.inr (hbq hq0)), entry_linkBack_self hq0 hb,
      entry_setField_of_apart (.inr (hbq hq0))]
  · rw [entry_setField_of_apart hab, entry_linkBack_of_apart haq, entry_setField_of_apart hab]

/-- The stores of the merge with the next chunk. -/
private theorem merges_next (h : Heap) {b size q : ℕ} (hsize : size < 2 ^ 32) (hq : q < 2 ^ 64)
    (hb : b < 2 ^ 64) (hbq : q ≠ 0 → b + entrySize ≤ q) :
    Merges h (((h.setField b .size size).setField b .next q).linkBack q b) b size q := by
  refine ⟨by simp, by simp, ?_, fun hq0 => ?_, fun a hab haq => ?_⟩
  · rw [entry_linkBack_of_apart fun hq0 => .inl (hbq hq0), entry_setField_self,
      entry_setField_self, MemEntry.set_size _ hsize, MemEntry.set_next _ hq]
  · rw [entry_linkBack_self hq0 hb, entry_setField_of_apart (.inr (hbq hq0)),
      entry_setField_of_apart (.inr (hbq hq0))]
  · rw [entry_linkBack_of_apart haq, entry_setField_of_apart hab, entry_setField_of_apart hab]

/-- A merge keeps the records. -/
private theorem Layout.merge_record (hL : Layout A h (l₀ ++ b :: d :: l₂))
    (hm : Merges h h' b.addr (b.size + entrySize + d.size) (firstAddr l₂ 0))
    (ha : a ∈ (l₀ ++ b :: d :: l₂).map Chunk.addr) : h'.record a = h.record a := by
  have hrelinks : Relinks h h' b.addr (b.addr + entrySize) b.addr (firstAddr l₂ 0) :=
    ⟨hm.initialized, hm.head, hm.back, hm.other⟩
  have hL' : Layout A h ((l₀ ++ [b]) ++ d :: l₂) := by simpa using hL
  have hnext := hL'.apart_next (a := a) (by simpa using ha)
  rcases hL.apart ha (b := b.addr) (by simp) with rfl | hle
  · rw [Heap.record, hm.entry, Heap.record]
  · exact hrelinks.record hle hnext

/-- A merge of two neighbours in the layout. -/
private theorem Layout.merge (hL : Layout A h (l₀ ++ b :: d :: l₂)) (hb : b.free = true)
    (hm : Merges h h' b.addr (b.size + entrySize + d.size) (firstAddr l₂ 0)) :
    Layout A h' (l₀ ++ ⟨b.addr, b.size + entrySize + d.size, true⟩ :: l₂) := by
  have hdesc := hL.describes
  have htiles := hL.tiles.merge true
  have hrelinks : Relinks h h' b.addr (b.addr + entrySize)
      (lastAddr (l₀ ++ [⟨b.addr, b.size + entrySize + d.size, true⟩]) 0) (firstAddr l₂ 0) := by
    rw [lastAddr, List.getLast?_concat]
    exact ⟨hm.initialized, hm.head, hm.back, hm.other⟩
  have hL' : Layout A h (l₀ ++ [b, d] ++ l₂) := by simpa using hL
  rw [List.append_cons] at htiles ⊢
  refine hL'.exchange (Nat.le_add_right _ _) (fun f hf => ?_) (fun f hf => ?_) hrelinks rfl htiles
    ⟨?_, trivial⟩
  · have := hL.tiles.before hf
    omega
  · have := hL.tiles.behind (d := f) (by simp [hf])
    omega
  · rw [hm.entry]
    exact ⟨hdesc.prev, rfl, by rw [← hb]; exact hdesc.isFree, rfl⟩

/-- Two neighbours fit in the array. -/
private theorem Layout.size_pair_le (hL : Layout A h (l₀ ++ b :: d :: l₂)) :
    b.size + entrySize + d.size ≤ heapSize := by
  have h₁ := hL.tiles.bounds (c := b) (by simp)
  have h₂ := hL.tiles.bounds (c := d) (by simp)
  have h₃ := hL.tiles.behind (c := b) (d := d) (by simp)
  omega

/-- The new size of a merged entry. -/
private theorem merged_size {m n : ℕ} (h : m + entrySize + n ≤ heapSize) :
    unsigned (sizeT (m + sizeT (n + entrySize))) = m + entrySize + n := by
  simp only [entrySize, heapSize] at h ⊢
  unfold unsigned sizeT
  omega

/-- **The merge with the chunk before.** -/
theorem mergePrev_spec (hL : Layout A h (l₁ ++ c :: l₂)) (hc : c.free = true) :
    ∃ h', mergePrev A h c.addr = some (h', (Chunk.absorb entrySize l₁ c).2.addr) ∧
      Layout A h' ((Chunk.absorb entrySize l₁ c).1 ++ (Chunk.absorb entrySize l₁ c).2 :: l₂) ∧
      ∀ a ∈ (l₁ ++ c :: l₂).map Chunk.addr, h'.record a = h.record a := by
  have hcholds := hL.holdsEntry (c := c) (by simp)
  have hprev : (h.entry c.addr).get .prev = lastAddr l₁ 0 := hL.describes.prev
  rcases Chunk.absorb_cases entrySize l₁ c with ⟨l₀, b, rfl, hb, habs⟩ | ⟨hlast, habs⟩
  · -- `b`, the entry in front, is free and takes over the chunk of `c`
    have hL' : Layout A h (l₀ ++ b :: c :: l₂) := by simpa using hL
    have hbholds := hL'.holdsEntry (c := b) (by simp)
    have hbc : b.addr + entrySize ≤ c.addr := by
      have := hL'.tiles.behind (c := b) (d := c) (by simp)
      omega
    obtain ⟨q, hq⟩ : ∃ q, q = firstAddr l₂ 0 := ⟨_, rfl⟩
    have hqc := hL.room_of_next hq
    have hlast : lastAddr (l₀ ++ [b]) 0 = b.addr := by rw [lastAddr, List.getLast?_concat]
    have hbsize : (h.entry b.addr).get .size = b.size := hL'.describes.size
    have hcsize : (h.entry c.addr).get .size = c.size := hL.describes.size
    have hnext : (h.entry c.addr).get .next = q := hL.describes.next.trans hq.symm
    have hsum := merged_size (hL'.size_pair_le)
    obtain ⟨s, hs⟩ : ∃ s, s = b.size + entrySize + c.size := ⟨_, rfl⟩
    have hkeep : (h.setField b.addr .size s).entry c.addr = h.entry c.addr :=
      entry_setField_of_apart (.inr hbc) _ _
    have hrun : mergePrev A h c.addr
        = some (((h.setField b.addr .size s).linkBack q b.addr).setField b.addr .next q,
          b.addr) := by
      simp only [mergePrev, load_eq hcholds, load_eq hbholds, store_eq hbholds, hprev, hlast,
        isFreeIfAny_eq hL', hb, hbsize, hcsize, hsum, ← hs, hkeep, hnext, linkBack_eq hqc.1,
        Option.bind_eq_bind, Option.bind_some, if_true]
    have hlt := hbholds.lt
    have hpair := hL'.size_pair_le
    have hheap : heapSize < 2 ^ 32 := by decide
    have hmerges := merges_prev h (b := b.addr) (show s < 2 ^ 32 by omega) hqc.2.2 (by omega)
      fun hq0 => by have := hqc.2.1 hq0; omega
    refine ⟨_, by rw [hrun, habs], ?_, fun a ha => ?_⟩
    · rw [habs]
      exact hL'.merge hb (hq ▸ hs ▸ hmerges)
    · exact hL'.merge_record (hq ▸ hs ▸ hmerges) (by simpa using ha)
  · -- no entry in front, or one in use
    have hfree : h.isFreeIfAny A (lastAddr l₁ 0) = some false := by
      rcases List.eq_nil_or_concat l₁ with rfl | ⟨l₀, b, rfl⟩
      · rfl
      · rw [List.concat_eq_append] at hL hlast ⊢
        have hL' : Layout A h (l₀ ++ b :: c :: l₂) := by simpa using hL
        rw [lastAddr, List.getLast?_concat]
        exact (isFreeIfAny_eq hL').trans (congrArg some (hlast b (by simp)))
    have hcc : ({ c with free := true } : Chunk) = c := by rw [← hc]
    refine ⟨h, ?_, ?_, fun _ _ => rfl⟩
    · simp [mergePrev, load_eq hcholds, hprev, hfree, habs]
    · rw [habs, hcc]
      exact hL

/-- **The merge with the chunk behind.** -/
theorem mergeNext_spec (hL : Layout A h (l₁ ++ t :: l₂)) (ht : t.free = true) :
    ∃ h', mergeNext A h t.addr = some h' ∧ Layout A h' (l₁ ++ t.glue entrySize l₂) ∧
      ∀ a ∈ (l₁ ++ t :: l₂).map Chunk.addr, h'.record a = h.record a := by
  have htholds := hL.holdsEntry (c := t) (by simp)
  have hnext : (h.entry t.addr).get .next = firstAddr l₂ 0 := hL.describes.next
  cases l₂ with
  | nil =>
    exact ⟨h, by simp [mergeNext, load_eq htholds, hnext, firstAddr, isFreeIfAny_zero], hL,
      fun _ _ => rfl⟩
  | cons d l₂ =>
    have hL' : Layout A h ((l₁ ++ [t]) ++ d :: l₂) := by simpa using hL
    cases hd : d.free with
    | false =>
      have hglue : t.glue entrySize (d :: l₂) = t :: d :: l₂ := by simp [Chunk.glue, hd]
      refine ⟨h, ?_, hglue.symm ▸ hL, fun _ _ => rfl⟩
      simp [mergeNext, load_eq htholds, hnext, firstAddr, isFreeIfAny_eq hL', hd]
    | true =>
      -- `t` takes over the chunk of `d`
      have hdholds := hL'.holdsEntry (c := d) (by simp)
      have htd : t.addr + entrySize ≤ d.addr := by
        have := hL.tiles.behind (c := t) (d := d) (by simp)
        omega
      obtain ⟨q, hq⟩ : ∃ q, q = firstAddr l₂ 0 := ⟨_, rfl⟩
      have hqd := hL'.room_of_next hq
      have htsize : (h.entry t.addr).get .size = t.size := hL.describes.size
      have hdsize : (h.entry d.addr).get .size = d.size := hL'.describes.size
      have hnext' : (h.entry d.addr).get .next = q := hL'.describes.next.trans hq.symm
      have hsum := merged_size hL.size_pair_le
      obtain ⟨s, hs⟩ : ∃ s, s = t.size + entrySize + d.size := ⟨_, rfl⟩
      have hkeep : (h.setField t.addr .size s).entry d.addr = h.entry d.addr :=
        entry_setField_of_apart (.inr htd) _ _
      have hrun : mergeNext A h t.addr
          = some (((h.setField t.addr .size s).setField t.addr .next q).linkBack q t.addr) := by
        simp only [mergeNext, load_eq htholds, load_eq hdholds, store_eq htholds, hnext, firstAddr,
          isFreeIfAny_eq hL', hd, htsize, hdsize, hsum, ← hs, hkeep, hnext', linkBack_eq hqd.1,
          Option.bind_eq_bind, Option.bind_some, if_true]
      have hlt := htholds.lt
      have hpair := hL.size_pair_le
      have hheap : heapSize < 2 ^ 32 := by decide
      have hmerges := merges_next h (b := t.addr) (show s < 2 ^ 32 by omega) hqd.2.2 (by omega)
        fun hq0 => by have := hqd.2.1 hq0; omega
      have hglue : t.glue entrySize (d :: l₂)
          = ⟨t.addr, t.size + entrySize + d.size, true⟩ :: l₂ := by simp [Chunk.glue, hd, ht]
      exact ⟨_, hrun, hglue.symm ▸ hL.merge ht (hq ▸ hs ▸ hmerges),
        fun a ha => hL.merge_record (hq ▸ hs ▸ hmerges) ha⟩

/-- Marking an entry free. -/
private theorem markFree_layout (hL : Layout A h (l₁ ++ c :: l₂)) (file line : ℕ) :
    Layout A (((h.setField c.addr .isFree 1).setField c.addr .fileFree file).setField c.addr
      .lineFree line) (l₁ ++ { c with free := true } :: l₂) := by
  obtain ⟨he₁, hdesc, he₂⟩ := Encodes.append_iff.mp hL.encodes
  have hother : ∀ a, (a + entrySize ≤ c.addr ∨ c.addr + entrySize ≤ a) →
      (((h.setField c.addr .isFree 1).setField c.addr .fileFree file).setField c.addr
        .lineFree line).entry a = h.entry a := by
    intro a ha
    rw [entry_setField_of_apart ha, entry_setField_of_apart ha, entry_setField_of_apart ha]
  refine ⟨hL.initialized, hL.head, hL.tiles.setFree true, ?_⟩
  refine Encodes.append_iff.mpr ⟨he₁.congr fun d hd => hother _ ?_, ?_,
    he₂.congr fun d hd => hother _ ?_⟩
  · exact .inl (by have := hL.tiles.before hd; omega)
  · simp only [entry_setField_self]
    exact ⟨hdesc.prev, hdesc.next, rfl, hdesc.size⟩
  · exact .inr (by have := hL.tiles.behind hd; omega)

/-- Marking an entry free writes its record only. -/
private theorem markFree_record (hL : Layout A h (l₁ ++ c :: l₂)) (file : ℕ) (callerLine : ℤ)
    (ha : a ∈ (l₁ ++ c :: l₂).map Chunk.addr) :
    (((h.setField c.addr .isFree 1).setField c.addr .fileFree file).setField c.addr
      .lineFree (unsigned callerLine)).record a =
        if a = c.addr then (file % 2 ^ 64, unsigned callerLine) else h.record a := by
  split_ifs with heq
  · have hline : unsigned callerLine % 2 ^ 32 = unsigned callerLine := by
      unfold unsigned
      omega
    simp only [heq, Heap.record, entry_setField_self, MemEntry.set]
    exact congrArg (Prod.mk _) hline
  · have hapart := (hL.apart ha (b := c.addr) (by simp)).resolve_left heq
    rw [Heap.record, entry_setField_of_apart hapart, entry_setField_of_apart hapart,
      entry_setField_of_apart hapart, Heap.record]

/-- **The branch that frees an entry.** The record of the entry is written, and no other one. -/
theorem freeEntry_spec (hL : Layout A h (l₁ ++ c :: l₂)) (file : ℕ) (callerLine : ℤ) :
    ∃ h', freeEntry A file callerLine h c.addr = some h' ∧
      Layout A h' (Chunk.release entrySize l₁ c l₂) ∧
      ∀ a ∈ (Chunk.release entrySize l₁ c l₂).map Chunk.addr, h'.record a =
        if a = c.addr then (file % 2 ^ 64, unsigned callerLine) else h.record a := by
  have hc := hL.holdsEntry (c := c) (by simp)
  have hmark := markFree_layout hL file (unsigned callerLine)
  obtain ⟨h₁, hprev, hL₁, hrecord₁⟩ := mergePrev_spec hmark rfl
  rw [Chunk.absorb_setFree] at hprev hL₁
  have hfree : (Chunk.absorb entrySize l₁ c).2.free = true := by
    rcases Chunk.absorb_cases entrySize l₁ c with ⟨l₀, b, -, -, habs⟩ | ⟨-, habs⟩ <;> rw [habs]
  obtain ⟨h₂, hnext, hL₂, hrecord₂⟩ := mergeNext_spec hL₁ hfree
  refine ⟨h₂, ?_, hL₂, fun a ha => ?_⟩
  · simp only [freeEntry, store_eq hc, hprev, hnext, Option.bind_eq_bind, Option.bind_some]
  · -- the header was there before each of the merges
    have ha₁ := (Chunk.map_addr_release entrySize l₁ l₂ c).mem ha
    have ha₂ := (Chunk.map_addr_absorb entrySize l₁ l₂ c).mem ha₁
    have hmarked : a ∈ (l₁ ++ { c with free := true } :: l₂).map Chunk.addr := by simpa using ha₂
    rw [hrecord₂ a ha₁, hrecord₁ a hmarked, markFree_record hL file callerLine ha₂]

/-! ### The loop -/

/-- The addresses `customFree` compares with at an entry. -/
private theorem offset_eq (hL : Layout A h cs) (hc : c ∈ cs) :
    sizeT (c.addr + entrySize) = c.addr + entrySize ∧
      sizeT ((c.addr + entrySize : ℕ) + c.size) = c.addr + entrySize + c.size := by
  have hb := (hL.tiles.bounds hc).2
  have hfits := A.fits
  have hcast₁ : (c.addr + entrySize : ℤ) = (c.addr + entrySize : ℕ) := by push_cast; ring
  have hcast₂ : ((c.addr + entrySize : ℕ) + c.size : ℤ) = (c.addr + entrySize + c.size : ℕ) := by
    push_cast
    ring
  rw [hcast₁, hcast₂, sizeT_eq (by omega), sizeT_eq (by omega)]
  exact ⟨rfl, rfl⟩

/-- The report on a free entry. -/
def redundantReport (h : Heap) (a data file : ℕ) (callerLine : ℤ) : Report :=
  { errorReport file callerLine .freeRedundant data with
    freedAt := some (toInt (h.entry a).lineFree, (h.entry a).fileFree) }

/-- One turn of the loop of `customFree`. -/
theorem freeLoop_step (hL : Layout A h (l₁ ++ c :: l₂)) (data file : ℕ) (callerLine : ℤ) :
    freeLoop A data file callerLine (n + 1) h c.addr =
      if c.addr + entrySize < data ∧ data < c.addr + entrySize + c.size then
        some (h, some (errorReport file callerLine .freeMiddle data))
      else if c.addr + entrySize = data then
        if c.free then some (h, some (redundantReport h c.addr data file callerLine))
        else (freeEntry A file callerLine h c.addr).map fun h' => (h', none)
      else freeLoop A data file callerLine n h (firstAddr l₂ 0) := by
  have hc := hL.holdsEntry (c := c) (by simp)
  obtain ⟨hoff₁, hoff₂⟩ := offset_eq hL (c := c) (by simp)
  have hsize : (h.entry c.addr).get .size = c.size := hL.describes.size
  have hnext : (h.entry c.addr).get .next = firstAddr l₂ 0 := hL.describes.next
  have hfree : (h.entry c.addr).get .isFree = c.free.toNat := hL.describes.isFree
  simp only [freeLoop, hc.ne_zero, if_false, load_eq hc, hoff₁, hsize, hoff₂, hfree, hnext,
    Option.bind_eq_bind, Option.bind_some]
  cases c.free
  · simp [Option.map_eq_bind]
  · rfl

/-- **A call that frees nothing**: no used entry starts at `data`, and the report says that the
call is redundant if and only if a free one does. -/
structure Rejects (h : Heap) (cs : List Chunk) (data file : ℕ) (callerLine : ℤ) (r : Report) :
    Prop where
  used : ∀ c ∈ cs, c.free = false → data ≠ c.addr + entrySize
  redundant : ∀ c ∈ cs, data = c.addr + entrySize →
    r = redundantReport h c.addr data file callerLine
  entry : r.error = .freeRedundant → ∃ c ∈ cs, data = c.addr + entrySize

/-- No entry starts at `data`. -/
private theorem Rejects.of_ne {data file : ℕ} {callerLine : ℤ} {r : Report}
    (hr : r.error ≠ .freeRedundant)
    (hne : ∀ c ∈ cs, data ≠ c.addr + entrySize) : Rejects h cs data file callerLine r :=
  ⟨fun c hc _ => hne c hc, fun c hc heq => absurd heq (hne c hc), fun heq => absurd heq hr⟩

/-- **The loop of `customFree`** frees the used entry whose data starts at `data`, and without
one writes nothing and reports an error. -/
theorem freeLoop_spec (hL : Layout A h (l₁ ++ l₂)) (hn : l₂.length < n) (data file : ℕ)
    (callerLine : ℤ) :
    (∃ k₁ c k₂, l₂ = k₁ ++ c :: k₂ ∧ c.free = false ∧ data = c.addr + entrySize ∧
      freeLoop A data file callerLine n h (firstAddr l₂ 0)
        = (freeEntry A file callerLine h c.addr).map fun h' => (h', none)) ∨
    (∃ r, freeLoop A data file callerLine n h (firstAddr l₂ 0) = some (h, some r) ∧
      Rejects h l₂ data file callerLine r) := by
  induction l₂ generalizing l₁ n with
  | nil =>
    obtain ⟨n, rfl⟩ := Nat.exists_eq_succ_of_ne_zero (by omega : n ≠ 0)
    exact .inr ⟨errorReport file callerLine .freeNotAllocated data,
      by simp only [freeLoop, firstAddr, if_true], .of_ne (by simp [errorReport]) (by simp)⟩
  | cons c l₂ ih =>
    obtain ⟨n, rfl⟩ := Nat.exists_eq_succ_of_ne_zero (by omega : n ≠ 0)
    have hstep := freeLoop_step (n := n) hL data file callerLine
    have hbehind : ∀ d ∈ l₂, c.addr + entrySize + c.size < d.addr + entrySize := by
      intro d hd
      have := hL.tiles.behind hd
      have hentry : entrySize = 40 := rfl
      omega
    simp only [firstAddr]
    rw [hstep]
    by_cases hmid : c.addr + entrySize < data ∧ data < c.addr + entrySize + c.size
    · -- inside the memory of `c`: an error, and no block starts there
      rw [if_pos hmid]
      refine .inr ⟨_, rfl, .of_ne (by simp [errorReport]) fun d hd => ?_⟩
      rcases List.mem_cons.mp hd with rfl | hd
      · omega
      · have := hbehind d hd
        omega
    · rw [if_neg hmid]
      by_cases hoff : c.addr + entrySize = data
      · rw [if_pos hoff]
        have hother : ∀ d ∈ l₂, data ≠ d.addr + entrySize := fun d hd => by
          have := hbehind d hd
          omega
        cases hfree : c.free with
        | false => exact .inl ⟨[], c, l₂, rfl, hfree, hoff.symm, by simp⟩
        | true =>
          refine .inr ⟨_, if_pos rfl, fun d hd hused => ?_, fun d hd heq => ?_,
            fun _ => ⟨c, by simp, hoff.symm⟩⟩
          · rcases List.mem_cons.mp hd with rfl | hd
            · rw [hfree] at hused
              cases hused
            · exact hother d hd
          · rcases List.mem_cons.mp hd with rfl | hd
            · rfl
            · exact absurd heq (hother d hd)
      · rw [if_neg hoff]
        have hL' : Layout A h ((l₁ ++ [c]) ++ l₂) := by simpa using hL
        rcases ih hL' (by simpa using hn) with ⟨k₁, d, k₂, rfl, hd, hdata, hrun⟩ | ⟨r, hrun, hrej⟩
        · exact .inl ⟨c :: k₁, d, k₂, rfl, hd, hdata, hrun⟩
        · refine .inr ⟨r, hrun, List.forall_mem_cons.mpr ⟨fun _ => Ne.symm hoff, hrej.used⟩,
            List.forall_mem_cons.mpr ⟨fun heq => absurd heq.symm hoff, hrej.redundant⟩,
            fun heq => ?_⟩
          obtain ⟨d, hd, hdata⟩ := hrej.entry heq
          exact ⟨d, by simp [hd], hdata⟩

/-- **`customFree`** on an initialized heap. -/
theorem customFree_spec (hL : Layout A h cs) (data file : ℕ) (callerLine : ℤ) :
    (∃ l₁ c l₂ h', cs = l₁ ++ c :: l₂ ∧ c.free = false ∧ data = c.addr + entrySize ∧
      customFree A h data file callerLine = some (h', none) ∧
      Layout A h' (Chunk.release entrySize l₁ c l₂) ∧
      ∀ a ∈ (Chunk.release entrySize l₁ c l₂).map Chunk.addr, h'.record a =
        if a = c.addr then (file % 2 ^ 64, unsigned callerLine) else h.record a) ∨
    (∃ r, customFree A h data file callerLine = some (h, some r) ∧
      Rejects h cs data file callerLine r) := by
  have hL' : Layout A h ([] ++ cs) := hL
  rw [customFree, if_pos hL.initialized, ← hL.firstAddr_eq]
  rcases freeLoop_spec hL' hL.length_lt data file callerLine with
    ⟨l₁, c, l₂, rfl, hc, hdata, hrun⟩ | ⟨r, hrun, hrej⟩
  · obtain ⟨h', hfree, hL'', hrecord⟩ := freeEntry_spec hL file callerLine
    exact .inl ⟨l₁, c, l₂, h', rfl, hc, hdata, by rw [hrun, hfree]; rfl, hL'', hrecord⟩
  · exact .inr ⟨r, hrun, hrej⟩

end Cs214.EnhancedMalloc

import Cs214.EnhancedMalloc.Restore

/-!
# Allocating again what was released

`customMalloc` looks for a free entry with room for the block and for one more header, so an entry
that has just been released has room for a block of the same size only if it was merged with a
neighbour. `malloc_free_iff` says when a block that is released can be allocated again at once: a
neighbour of its entry is free, or another free entry has the room.
-/

namespace Cs214.EnhancedMalloc

open Chunk

variable {A : Arena} {s : Config} {h : Heap} {p n : ℕ} {c : Chunk} {cs l₁ l₂ : List Chunk}
  {tr : List (Event Config Op Answer)}

/-- The test `p != NULL && p->isFree`. -/
def Heap.FreeEntry (h : Heap) (a : ℕ) : Prop := a ≠ 0 ∧ (h.entry a).isFree ≠ 0

private theorem freeEntry_iff (hL : Layout A h cs) (hc : c ∈ cs) :
    h.FreeEntry c.addr ↔ c.free = true := by
  rw [Heap.FreeEntry, (hL.describes_of_mem hc).2]
  cases c.free
  · simp
  · simp [(hL.holdsEntry hc).ne_zero]

/-- The entry in front of a chunk. -/
private theorem freeEntry_prev_iff (hL : Layout A h (l₁ ++ c :: l₂)) :
    h.FreeEntry (h.entry c.addr).prev ↔ ∃ b ∈ l₁.getLast?, b.free = true := by
  rw [hL.describes.prev]
  rcases List.eq_nil_or_concat l₁ with rfl | ⟨l₀, b, rfl⟩
  · simp [Heap.FreeEntry, lastAddr]
  · rw [List.concat_eq_append, lastAddr, List.getLast?_concat, freeEntry_iff hL (by simp)]
    simp

/-- The entry behind a chunk. -/
private theorem freeEntry_next_iff (hL : Layout A h (l₁ ++ c :: l₂)) :
    h.FreeEntry (h.entry c.addr).next ↔ ∃ d ∈ l₂.head?, d.free = true := by
  rw [hL.describes.next]
  cases l₂ with
  | nil => simp [Heap.FreeEntry, firstAddr]
  | cons d l₂ =>
    rw [firstAddr, freeEntry_iff hL (by simp)]
    simp

/-- The free entries with room for `n` bytes. -/
private theorem exists_fits_iff (hL : Layout A h cs) : (∃ a ∈ cs.map Chunk.addr, h.FreeEntry a ∧
      n + entrySize ≤ (h.entry a).size) ↔ ∃ c ∈ cs, c.free = true ∧ n + entrySize ≤ c.size := by
  simp only [List.mem_map, exists_exists_and_eq_and]
  refine exists_congr fun c => and_congr_right fun hc => ?_
  rw [freeEntry_iff hL hc, (hL.describes_of_mem hc).1]

/-- The size of the block that is held at an entry. -/
private theorem Valid.size_of_live (hv : Valid A s) (hL : Layout A s.heap cs) (hc : c ∈ cs)
    (hp : (c.addr + entrySize, n) ∈ s.live) : n = c.size := by
  obtain ⟨d, hd, -, heq⟩ := mem_blocks.mp ((hv.live_perm hL).mem_iff.mp hp)
  obtain ⟨haddr, rfl⟩ := Prod.mk.inj heq
  have hentry : entrySize = 40 := rfl
  rcases hL.tiles.apart hc hd with rfl | hle | hle
  · rfl
  · omega
  · omega

/-- **The next `customMalloc`** in a state laid out in chunks. -/
theorem step_malloc_iff (hv : Valid A s) (hL : Layout A s.heap cs) {file : ℕ} {callerLine : ℤ}
    (hl : legal s (.malloc n file callerLine)) :
    ∃ s' q r, step A s (.malloc n file callerLine) = some (s', .pointer q r) ∧
      (q ≠ 0 ↔ ∃ c ∈ cs, c.free = true ∧ n + entrySize ≤ c.size) := by
  obtain ⟨s', out, hstep, heff⟩ := exists_effect hv hl
  have hens := ensureInit_of_layout hL
  cases heff with
  | malloc hens' hL' hfree hfit =>
    obtain rfl := Option.some.inj (hens.symm.trans hens')
    obtain rfl := hL.unique hL'
    have hne := (hL'.holdsEntry (c := _) List.mem_append_cons_self).ne_zero
    exact ⟨_, _, _, hstep, iff_of_true (by omega) ⟨_, List.mem_append_cons_self, hfree, hfit⟩⟩
  | mallocNull hens' hL' hnone =>
    obtain rfl := Option.some.inj (hens.symm.trans hens')
    obtain rfl := hL.unique hL'
    refine ⟨_, _, _, hstep, iff_of_false (fun hne => hne rfl) ?_⟩
    rintro ⟨c, hc, hfree, hfit⟩
    have := hnone c hc hfree
    omega

/-- **Allocating again what was released.** Releasing a block and allocating one of the same size
gives a block if and only if a neighbour of its entry was free or another free entry had room for
the block and a header. -/
theorem malloc_free_iff (hr : Run (machine A) (start A) tr s) (hp : (p, n) ∈ s.live)
    {file file' : ℕ} {callerLine callerLine' : ℤ} (hl : legal s (.free p file callerLine))
    (hl' : legal s (.malloc n file' callerLine')) :
    ∃ s₁ s₂ q r as, step A s (.free p file callerLine) = some (s₁, .freed none) ∧
      step A s₁ (.malloc n file' callerLine') = some (s₂, .pointer q r) ∧
      Visits s.heap s.heap.head as ∧
      (q ≠ 0 ↔ s.heap.FreeEntry (s.heap.entry (p - entrySize)).prev ∨
        s.heap.FreeEntry (s.heap.entry (p - entrySize)).next ∨
        ∃ a ∈ as, s.heap.FreeEntry a ∧ n + entrySize ≤ (s.heap.entry a).size) := by
  have hv := valid_of_run hr
  obtain ⟨s₁, out, hstep, heff⟩ := exists_effect hv hl
  have hv₁ := heff.valid hv
  cases heff with
  | freeError hdata => exact absurd hp (hdata n)
  | @free _ _ h' l₁ l₂ c hL hused hL' =>
    obtain rfl := hv.size_of_live hL (by simp) hp
    obtain ⟨s₂, q, r, hstep', hq⟩ := step_malloc_iff hv₁ hL' hl'
    refine ⟨_, s₂, q, r, _, hstep, hstep', hL.visits, hq.trans ?_⟩
    rw [Nat.add_sub_cancel, freeEntry_prev_iff hL, freeEntry_next_iff hL, exists_fits_iff hL]
    exact exists_room_release (by decide) hused

/-- A session that leaves no free byte: the second block takes all that is left. -/
def fullHeap : List Op := [.malloc 100 8 21, .malloc 4780 8 22]

private theorem exec_fullHeap : ((machine lowArena).exec (start lowArena) fullHeap).isSome := by
  decide +kernel

/-- The trace of the session and the state it leads to. -/
def fullHeapRun : List (Event Config Op Answer) × Config :=
  ((machine lowArena).exec (start lowArena) fullHeap).get exec_fullHeap

private theorem run_fullHeap :
    Run (machine lowArena) (start lowArena) fullHeapRun.1 fullHeapRun.2 :=
  Machine.run_get exec_fullHeap

/-- The second block can be allocated again, since the entry behind it is free. -/
theorem malloc_free_iff_fullHeap : ∃ s₁ s₂ q r,
    step lowArena fullHeapRun.2 (.free 4276 8 23) = some (s₁, .freed none) ∧
      step lowArena s₁ (.malloc 4780 8 24) = some (s₂, .pointer q r) ∧ q ≠ 0 := by
  obtain ⟨s₁, s₂, q, r, as, hfree, hmalloc, -, hq⟩ := malloc_free_iff run_fullHeap
    (show (4276, 4780) ∈ fullHeapRun.2.live by decide +kernel)
    (show legal fullHeapRun.2 (.free 4276 8 23) by decide)
    (show legal fullHeapRun.2 (.malloc 4780 8 24) by decide)
  have hnext : fullHeapRun.2.heap.FreeEntry (fullHeapRun.2.heap.entry 4236).next :=
    ⟨by decide +kernel, by decide +kernel⟩
  exact ⟨s₁, s₂, q, r, hfree, hmalloc, hq.mpr (.inr (.inl hnext))⟩

/-- The first block is released, and cannot be allocated again. -/
theorem not_malloc_free : ¬∀ (tr : List (Event Config Op Answer)) (s s₁ s₂ : Config)
    (p n q : ℕ) (r : Option Report), Run (machine lowArena) (start lowArena) tr s →
      (p, n) ∈ s.live → step lowArena s (.free p 8 23) = some (s₁, .freed none) →
      step lowArena s₁ (.malloc n 8 24) = some (s₂, .pointer q r) → q ≠ 0 := by
  intro h
  have hfree : (step lowArena fullHeapRun.2 (.free 4136 8 23)).map Prod.snd =
      some (.freed none) := by
    decide +kernel
  have hmalloc : ((step lowArena fullHeapRun.2 (.free 4136 8 23)).bind fun x =>
      step lowArena x.1 (.malloc 100 8 24)).map Prod.snd =
        some (.pointer 0 (some (errorReport 8 24 .mallocInsufficient 0))) := by
    decide +kernel
  obtain ⟨⟨s₁, out⟩, hstep, rfl⟩ := Option.map_eq_some_iff.mp hfree
  rw [hstep, Option.bind_some] at hmalloc
  obtain ⟨⟨s₂, out⟩, hstep', rfl⟩ := Option.map_eq_some_iff.mp hmalloc
  have hlive : (4136, 100) ∈ fullHeapRun.2.live := by decide +kernel
  exact h _ _ s₁ s₂ 4136 100 0 _ run_fullHeap hlive hstep hstep' rfl

end Cs214.EnhancedMalloc

import Cs214.EnhancedMalloc.Effect

/-!
# The entries and the blocks held

The results are stated in the terms of the source: `Visits h p as` says that following `next`
from `p` visits the entries `as` and arrives at null, and the fields are read off the bytes.

`heap_layout` is the invariant of the entry list: the entries tile the array without a gap, the
list is doubly linked, and no two neighbours are free. `live_blocks` ties the entries to the
client: the used entries are exactly the blocks held, and a call changes the heap only when it
succeeds.
-/

namespace Cs214.EnhancedMalloc

open Chunk

variable {A : Arena} {s s' : Config} {h h' : Heap} {p : ℕ} {c d : Chunk} {cs l₁ l₂ : List Chunk}
  {as as' : List ℕ} {tr : List (Event Config Op Answer)}

/-- Following `next` from `p` visits the entries at `as`, in this order, and then arrives at
null. -/
def Visits (h : Heap) : ℕ → List ℕ → Prop
  | p, [] => p = 0
  | p, a :: as => p = a ∧ a ≠ 0 ∧ Visits h (h.entry a).next as

/-- **The entry list of an initialized heap.** -/
structure WellFormed (A : Arena) (h : Heap) (as : List ℕ) : Prop where
  visits : Visits h h.head as
  first : as.head? = some A.addr
  adjacent : as.IsChain fun a b => b = a + entrySize + (h.entry a).size
  last : ∀ a ∈ as.getLast?, a + entrySize + (h.entry a).size = A.addr + heapSize
  sum : (as.map fun a => entrySize + (h.entry a).size).sum = heapSize
  prev_first : (h.entry A.addr).prev = 0
  inverse : ∀ a ∈ as, ∀ b ∈ as, (h.entry a).next = b ↔ (h.entry b).prev = a
  coalesced : as.IsChain fun a b => ¬((h.entry a).isFree ≠ 0 ∧ (h.entry b).isFree ≠ 0)

/-- The visited entries are determined. -/
theorem Visits.unique (hv : Visits h p as) (hv' : Visits h p as') : as = as' := by
  induction as generalizing p as' with
  | nil =>
    cases as' with
    | nil => rfl
    | cons a as' => exact absurd (hv'.1.symm.trans hv) hv'.2.1
  | cons a as ih =>
    cases as' with
    | nil => exact absurd (hv.1.symm.trans hv') hv.2.1
    | cons a' as' =>
      obtain ⟨rfl, -, ht⟩ := hv
      obtain ⟨rfl, -, ht'⟩ := hv'
      rw [ih ht ht']

namespace Layout

/-- The entries visited are the headers of the chunks. -/
theorem visits (hL : Layout A h cs) : Visits h h.head (cs.map Chunk.addr) := by
  have hgen : ∀ (cs : List Chunk) (p : ℕ), Encodes h.entry p 0 cs → (∀ c ∈ cs, c.addr ≠ 0) →
      Visits h (firstAddr cs 0) (cs.map Chunk.addr) := by
    intro cs
    induction cs with
    | nil => exact fun _ _ _ => rfl
    | cons c cs ih =>
      rintro p ⟨hc, ht⟩ hne
      refine ⟨rfl, hne c (by simp), ?_⟩
      rw [hc.next]
      exact ih c.addr ht fun d hd => hne d (by simp [hd])
  rw [← hL.firstAddr_eq]
  exact hgen cs 0 hL.encodes fun c hc => (hL.holdsEntry hc).ne_zero

/-- The size and the flag in the header of a chunk. -/
theorem describes_of_mem (hL : Layout A h cs) (hc : c ∈ cs) :
    (h.entry c.addr).size = c.size ∧ (h.entry c.addr).isFree = c.free.toNat := by
  obtain ⟨l₁, l₂, rfl⟩ := List.append_of_mem hc
  exact ⟨hL.describes.size, hL.describes.isFree⟩

/-- `prev` is the inverse of `next`. -/
private theorem next_eq_iff (hL : Layout A h cs) (hc : c ∈ cs) (hd : d ∈ cs) :
    (h.entry c.addr).next = d.addr ↔ (h.entry d.addr).prev = c.addr := by
  constructor
  · intro hnext
    obtain ⟨l₁, l₂, rfl⟩ := List.append_of_mem hc
    rw [hL.describes.next] at hnext
    cases l₂ with
    | nil => exact absurd hnext.symm (hL.holdsEntry hd).ne_zero
    | cons f l₂ =>
      have hL' : Layout A h ((l₁ ++ [c]) ++ f :: l₂) := by simpa using hL
      have hprev := hL'.describes.prev
      rw [lastAddr, List.getLast?_concat] at hprev
      rw [← hnext]
      exact hprev
  · intro hprev
    obtain ⟨l₁, l₂, rfl⟩ := List.append_of_mem hd
    rw [hL.describes.prev] at hprev
    rcases List.eq_nil_or_concat l₁ with rfl | ⟨l₀, b, rfl⟩
    · exact absurd hprev.symm (hL.holdsEntry hc).ne_zero
    · rw [List.concat_eq_append] at hL hprev
      rw [lastAddr, List.getLast?_concat] at hprev
      have hL' : Layout A h (l₀ ++ b :: d :: l₂) := by simpa using hL
      have hnext := hL'.describes.next
      rw [← hprev]
      exact hnext

/-- **A layout without two free neighbours is well formed.** -/
theorem wellFormed (hL : Layout A h cs) (hco : Coalesced cs) :
    WellFormed A h (cs.map Chunk.addr) where
  visits := hL.visits
  first := by
    cases cs with
    | nil =>
      -- chunks that tile the memory are not none
      have hend : A.addr = A.addr + heapSize := hL.tiles
      have : heapSize = 5000 := rfl
      omega
    | cons c cs => exact congrArg some hL.tiles.1
  adjacent := by
    refine (List.isChain_map _).mpr (hL.tiles.isChain.imp_of_mem_imp fun c d hc _ hcd => ?_)
    rw [(hL.describes_of_mem hc).1, hcd]
  last a ha := by
    rw [List.getLast?_map] at ha
    obtain ⟨c, hc, rfl⟩ := Option.mem_map.mp ha
    rw [(hL.describes_of_mem (List.mem_of_getLast? hc)).1]
    exact hL.tiles.getLast hc
  sum := by
    have hsum := hL.tiles.sum_eq
    rw [List.map_map]
    have hmap : cs.map ((fun a => entrySize + (h.entry a).size) ∘ Chunk.addr)
        = cs.map fun c => entrySize + c.size :=
      List.map_congr_left fun c hc => by simp [(hL.describes_of_mem hc).1]
    rw [hmap]
    omega
  prev_first := by
    cases cs with
    | nil =>
      have hend : A.addr = A.addr + heapSize := hL.tiles
      have : heapSize = 5000 := rfl
      omega
    | cons c cs =>
      have hL' : Layout A h ([] ++ c :: cs) := hL
      have hprev := hL'.describes.prev
      rw [hL.tiles.1] at hprev
      exact hprev
  inverse a ha b hb := by
    obtain ⟨c, hc, rfl⟩ := List.mem_map.mp ha
    obtain ⟨d, hd, rfl⟩ := List.mem_map.mp hb
    exact hL.next_eq_iff hc hd
  coalesced := by
    refine (List.isChain_map _).mpr (hco.imp_of_mem_imp fun c d hc hd hcd => ?_)
    rw [(hL.describes_of_mem hc).2, (hL.describes_of_mem hd).2]
    cases hcf : c.free <;> cases hdf : d.free <;> simp_all

end Layout

/-- A block is only given out of an entry with room for it and one more header. -/
private theorem Effect.room_of_malloc {size file r} {callerLine : ℤ}
    (he : Effect A s (.malloc size file callerLine) (.pointer p r) s') (hp : p ≠ 0) :
    ∃ h₁, EnhancedMalloc.ensureInit A s.heap = some h₁ ∧
      size + entrySize ≤ (h₁.entry (p - entrySize)).size := by
  cases he with
  | malloc hens hL hfree hfit hL' =>
    refine ⟨_, hens, ?_⟩
    rw [Nat.add_sub_cancel, hL.describes.size]
    exact hfit
  | mallocNull => exact absurd rfl hp

/-- **The heap stays laid out.** Whenever the heap is initialized its entries form a well-formed
list; no call subtracts a size from a smaller one; and every legal step is answered. -/
theorem heap_layout (hr : Run (machine A) (start A) tr s) :
    (s.heap.initialized = true → ∃ as, WellFormed A s.heap as) ∧
    (∀ e ∈ tr, ∀ size file callerLine p r, e.op = .malloc size file callerLine →
      e.out = .pointer p r → p ≠ 0 → ∃ h₁, ensureInit A e.pre.heap = some h₁ ∧
        size + entrySize ≤ (h₁.entry (p - entrySize)).size) ∧
    ∀ op, legal s op → (step A s op).isSome := by
  refine ⟨fun hi => ?_, fun e he size file callerLine p r hop hout hp => ?_,
    fun op hop => step_isSome_of_run hr hop⟩
  · cases valid_of_run hr with
    | fresh hfresh =>
      rw [hi] at hfresh
      cases hfresh
    | laidOut cs hL hco => exact ⟨_, hL.wellFormed hco⟩
  · obtain ⟨-, heff⟩ := effect_of_mem hr he
    rw [hop, hout] at heff
    exact heff.room_of_malloc hp

/-- The heap of the session is laid out. -/
theorem heap_layout_session : ∃ as, WellFormed lowArena sessionRun.2.heap as :=
  (heap_layout run_session).1 (by decide +kernel)

/-! ### Blocks held -/

/-- The blocks held are the used chunks of any layout. -/
theorem Valid.live_perm (hv : Valid A s) (hL : Layout A s.heap cs) :
    s.live.Perm (blocks entrySize cs) := by
  cases hv with
  | fresh hi =>
    have := hL.initialized
    rw [hi] at this
    cases this
  | laidOut cs' hL' _ hlive =>
    obtain rfl := hL.unique hL'
    exact hlive

/-- The blocks held start at distinct addresses. -/
theorem Valid.starts_nodup (hv : Valid A s) : (s.live.map Prod.fst).Nodup := by
  cases hv with
  | fresh _ hlive => simp [hlive]
  | laidOut cs hL _ hlive =>
    have hentry : entrySize = 40 := rfl
    have hpw := blocks_pairwise hL.tiles
    refine (hlive.map Prod.fst).nodup_iff.mpr (List.pairwise_map.mpr (hpw.imp fun hle heq => ?_))
    omega

/-- **The contract of each step** of the client. -/
def CallContract (A : Arena) (e : Event Config Op Answer) : Prop :=
  match e.op with
  | .malloc size _ _ => ∃ p r h₁, e.out = .pointer p r ∧ ensureInit A e.pre.heap = some h₁ ∧
      (p = 0 → e.post.heap = h₁ ∧ e.post.live = e.pre.live) ∧
      (p ≠ 0 → e.post.live = (p, size) :: e.pre.live)
  | .free data _ _ => (e.post.heap ≠ e.pre.heap ↔ ∃ n, (data, n) ∈ e.pre.live) ∧
      ∀ b, b ∈ e.post.live ↔ b ∈ e.pre.live ∧ b.1 ≠ data
  | .write _ _ => e.post.live = e.pre.live

/-- The effect of a step meets its contract. -/
theorem Effect.callContract (he : Effect A s op out s') (hv : Valid A s) :
    CallContract A ⟨s, op, out, s'⟩ := by
  cases he with
  | malloc hens hL hfree hfit hL' =>
    have hne := (hL.holdsEntry (c := _) (List.mem_append_cons_self)).ne_zero
    exact ⟨_, _, _, rfl, hens, fun h0 => by omega, fun _ => rfl⟩
  | mallocNull hens hL => exact ⟨0, _, _, rfl, hens, fun _ => ⟨rfl, rfl⟩, fun h0 => absurd rfl h0⟩
  | @free file callerLine h' l₁ l₂ c hL hused hL' =>
    have hblocks := blocks_release entrySize l₁ l₂ hused
    refine ⟨iff_of_true (fun heq => ?_) ⟨c.size, ?_⟩, fun b => by simp⟩
    · -- equal bytes would be the same chunks, of which one is used less
      change h' = s.heap at heq
      have hcs := (heq ▸ hL').unique hL
      have hboth := hblocks.1
      rw [hcs, hblocks.2] at hboth
      simpa using congrArg List.length hboth
    · refine (hv.live_perm hL).mem_iff.mpr ?_
      rw [hblocks.2]
      simp
  | freeError hdata =>
    refine ⟨iff_of_false (fun hne => hne rfl) fun ⟨n, hn⟩ => hdata n hn, fun b => ?_⟩
    refine ⟨fun hb => ⟨hb, ?_⟩, fun hb => hb.1⟩
    rintro rfl
    exact hdata b.2 hb
  | write => rfl

/-- The blocks held are the used entries. -/
private theorem Layout.mem_live_iff (hL : Layout A h cs) {n : ℕ} :
    (p, n) ∈ blocks entrySize cs ↔ ∃ a ∈ cs.map Chunk.addr, (h.entry a).isFree = 0 ∧
      p = a + entrySize ∧ n = (h.entry a).size := by
  rw [mem_blocks]
  constructor
  · rintro ⟨c, hc, hused, heq⟩
    obtain ⟨rfl, rfl⟩ := Prod.mk.inj heq
    have hd := hL.describes_of_mem hc
    exact ⟨c.addr, List.mem_map_of_mem hc, by rw [hd.2, hused]; rfl, rfl, hd.1.symm⟩
  · rintro ⟨a, ha, hfree, rfl, rfl⟩
    obtain ⟨c, hc, rfl⟩ := List.mem_map.mp ha
    have hd := hL.describes_of_mem hc
    refine ⟨c, hc, ?_, by rw [hd.1]⟩
    rw [hd.2] at hfree
    cases hcf : c.free
    · rfl
    · rw [hcf] at hfree
      cases hfree

/-- **Live blocks are the used entries.** In every reachable state the blocks held are the data
of the entries that are not free; they lie in the array, at distinct addresses, and overlap
neither each other nor a header. A call of `customFree` changes the heap exactly when it is
given the address of a block held, and a call of `customMalloc` that answers null does not,
apart from the initialization. -/
theorem live_blocks (hr : Run (machine A) (start A) tr s) :
    (s.heap.initialized = false → s.live = []) ∧
    (s.heap.initialized = true → ∃ as, Visits s.heap s.heap.head as ∧
      (∀ p n, (p, n) ∈ s.live ↔ ∃ a ∈ as, (s.heap.entry a).isFree = 0 ∧ p = a + entrySize ∧
        n = (s.heap.entry a).size) ∧
      ∀ a ∈ as, ∀ b ∈ s.live, a + entrySize ≤ b.1 ∨ b.1 + b.2 ≤ a) ∧
    (∀ b ∈ s.live, A.addr + entrySize ≤ b.1 ∧ b.1 + b.2 ≤ A.addr + heapSize) ∧
    (s.live.map Prod.fst).Nodup ∧
    s.live.Pairwise (fun b b' => b.1 + b.2 ≤ b'.1 ∨ b'.1 + b'.2 ≤ b.1) ∧
    (∀ e ∈ tr, CallContract A e) ∧ ∀ op, legal s op → (step A s op).isSome := by
  have hv := valid_of_run hr
  have hnodup := hv.starts_nodup
  have hcalls : (∀ e ∈ tr, CallContract A e) ∧ ∀ op, legal s op → (step A s op).isSome := by
    refine ⟨fun e he => ?_, fun op hop => step_isSome_of_run hr hop⟩
    obtain ⟨hve, heff⟩ := effect_of_mem hr he
    exact heff.callContract hve
  cases hv with
  | fresh hi hlive =>
    exact ⟨fun _ => hlive, fun h1 => absurd (hi.symm.trans h1) (by decide), by simp [hlive],
      hnodup, by simp [hlive], hcalls⟩
  | laidOut cs hL hco hlive =>
    have hpw := blocks_pairwise hL.tiles
    refine ⟨fun h0 => absurd (h0.symm.trans hL.initialized) (by decide), fun _ =>
      ⟨_, hL.visits, fun p n => hlive.mem_iff.trans hL.mem_live_iff, fun a ha b hb => ?_⟩,
      fun b hb => block_bounds hL.tiles (hlive.mem_iff.mp hb), hnodup, ?_, hcalls⟩
    · obtain ⟨c, hc, rfl⟩ := List.mem_map.mp ha
      exact block_header hL.tiles (hlive.mem_iff.mp hb) hc
    · exact (List.Perm.pairwise_iff (fun hdis => hdis.symm) hlive).mpr
        (hpw.imp fun hle => .inl (by omega))

/-- In the session the empty block is held, and the second release is an error. -/
theorem live_blocks_session : sessionRun.2.live = [(4276, 0)] ∧
    (∀ b ∈ sessionRun.2.live, 4096 + entrySize ≤ b.1 ∧ b.1 + b.2 ≤ 4096 + heapSize) ∧
    ∀ e ∈ sessionRun.1, CallContract lowArena e :=
  have hlive := live_blocks run_session
  ⟨by decide +kernel, hlive.2.2.1, hlive.2.2.2.2.2.1⟩

end Cs214.EnhancedMalloc

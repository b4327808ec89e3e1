import Cs214.EnhancedMalloc.Blocks

/-!
# The blocks held determine the layout

Two free chunks are never neighbours, so the chunks between the blocks held can only be cut in
one way: the entry list of an initialized heap is a function of the blocks the client holds
(`Valid.layout_unique`), whatever calls led to them. Releasing the same blocks in another order
therefore leaves the same layout (`frees_any_order`), and releasing a block that has just been
allocated restores the layout there was before (`free_malloc`).
-/

namespace Cs214.EnhancedMalloc

open Chunk

variable {A : Arena} {s s' s₁ : Config} {h : Heap} {cs cs' : List Chunk} {p : ℕ}
  {tr : List (Event Config Op Answer)} {S : List ℕ}

deriving instance DecidableEq for Report, Answer

/-! ### The layout that is seen -/

/-- What the layout says of an entry: where it is, its links, its flag and its size, but not
where it was freed. -/
@[ext] structure EntryView where
  addr : ℕ
  prev : ℕ
  next : ℕ
  isFree : ℕ
  size : ℕ
  deriving DecidableEq

/-- The view of the entry at an address. -/
def Heap.view (h : Heap) (a : ℕ) : EntryView :=
  ⟨a, (h.entry a).prev, (h.entry a).next, (h.entry a).isFree, (h.entry a).size⟩

/-- **The chunk layout of a heap**: its entries, in the order of the list. A heap that is not
initialized has none. -/
def HasLayout (h : Heap) (L : List EntryView) : Prop :=
  if h.initialized then
    Visits h h.head (L.map EntryView.addr) ∧ ∀ x ∈ L, x = h.view x.addr
  else L = []

/-- The entries that encode chunks, with `p` before them. -/
def entryViews : ℕ → List Chunk → List EntryView
  | _, [] => []
  | p, c :: cs => ⟨c.addr, p, firstAddr cs 0, c.free.toNat, c.size⟩ :: entryViews c.addr cs

private theorem map_addr_entryViews (p : ℕ) (cs : List Chunk) :
    (entryViews p cs).map EntryView.addr = cs.map Chunk.addr := by
  induction cs generalizing p with
  | nil => rfl
  | cons c cs ih => rw [entryViews, List.map_cons, List.map_cons, ih]

/-- Headers that encode chunks are seen as these. -/
private theorem Encodes.view (he : Encodes h.entry p 0 cs) :
    ∀ x ∈ entryViews p cs, x = h.view x.addr := by
  induction cs generalizing p with
  | nil => simp [entryViews]
  | cons c cs ih =>
    obtain ⟨hc, ht⟩ := he
    rw [entryViews, List.forall_mem_cons]
    refine ⟨?_, ih ht⟩
    rw [Heap.view, hc.prev, hc.next, hc.isFree, hc.size]

/-- **The layout of a heap laid out in chunks.** -/
theorem Layout.hasLayout (hL : Layout A h cs) : HasLayout h (entryViews 0 cs) := by
  rw [HasLayout, if_pos hL.initialized, map_addr_entryViews]
  exact ⟨hL.visits, hL.encodes.view⟩

/-! ### Uniqueness -/

/-- The blocks of two lists of chunks in the array are the same in the same order when they are
the same. -/
private theorem blocks_eq_of_perm {lo hi : ℕ} (h : Tiles entrySize lo hi cs)
    (h' : Tiles entrySize lo hi cs') (hperm : (blocks entrySize cs).Perm (blocks entrySize cs')) :
    blocks entrySize cs = blocks entrySize cs' := by
  have hentry : entrySize = 40 := rfl
  refine hperm.eq_of_pairwise (fun b b' _ _ hb hb' => ?_) (blocks_pairwise h) (blocks_pairwise h')
  omega

/-- **The blocks held determine the layout** of an initialized heap. -/
theorem Valid.layout_unique (hv : Valid A s) (hv' : Valid A s')
    (hi : s.heap.initialized = true) (hi' : s'.heap.initialized = true)
    (hlive : s.live.Perm s'.live) : ∃ cs, Layout A s.heap cs ∧ Layout A s'.heap cs := by
  cases hv with
  | fresh h0 => exact absurd (h0.symm.trans hi) (by decide)
  | laidOut cs hL hco hperm =>
    cases hv' with
    | fresh h0 => exact absurd (h0.symm.trans hi') (by decide)
    | laidOut cs' hL' hco' hperm' =>
      have hblocks := blocks_eq_of_perm hL.tiles hL'.tiles (hperm.symm.trans (hlive.trans hperm'))
      obtain rfl := hL.tiles.eq_of_blocks (by decide) hL'.tiles hco hco' hblocks
      exact ⟨cs, hL, hL'⟩

/-- The layout of a heap of which no block is held. -/
private theorem Valid.layout_of_nil (hv : Valid A s) (hi : s.heap.initialized = true)
    (hlive : s.live = []) : Layout A s.heap [wholeChunk A] := by
  cases hv with
  | fresh h0 => exact absurd (h0.symm.trans hi) (by decide)
  | laidOut cs hL hco hperm =>
    have hwhole : Tiles entrySize A.addr (A.addr + heapSize) [wholeChunk A] := ⟨rfl, by rfl⟩
    have hblocks : blocks entrySize cs = [] := (hlive ▸ hperm).nil_eq.symm
    rw [← hL.tiles.eq_of_blocks (by decide) hwhole hco (List.isChain_singleton _) hblocks]
    exact hL

/-! ### Releasing blocks in any order -/

/-- A call of `customFree`: the address, and the place of the call. -/
structure FreeCall where
  data : ℕ
  file : ℕ
  callerLine : ℤ

/-- The call as an operation of the client. -/
def FreeCall.op (x : FreeCall) : Op := .free x.data x.file x.callerLine

/-- A release of a block that is held. -/
private theorem step_free (hv : Valid A s) {data file : ℕ} {callerLine : ℤ}
    (hl : legal s (.free data file callerLine)) (hdata : ∃ n, (data, n) ∈ s.live) :
    ∃ h', step A s (.free data file callerLine)
        = some (⟨h', s.live.filter fun b => b.1 ≠ data⟩, .freed none) ∧ h'.initialized = true ∧
      Valid A ⟨h', s.live.filter fun b => b.1 ≠ data⟩ := by
  obtain ⟨s', out, hstep, heff⟩ := exists_effect hv hl
  have hv' := heff.valid hv
  cases heff with
  | free hL hused hL' => exact ⟨_, hstep, hL'.initialized, hv'⟩
  | freeError hnone =>
    obtain ⟨n, hn⟩ := hdata
    exact absurd hn (hnone n)

/-- **Releasing blocks one after another.** Every call succeeds, and the blocks left are those
that were not released. -/
theorem exec_frees (hv : Valid A s) (calls : List FreeCall)
    (hnodup : (calls.map FreeCall.data).Nodup)
    (hlive : ∀ x ∈ calls, ∃ n, (x.data, n) ∈ s.live) (hl : ∀ x ∈ calls, legal s x.op) :
    ∃ tr' s', (machine A).exec s (calls.map FreeCall.op) = some (tr', s') ∧
      (∀ e ∈ tr', e.out = .freed none) ∧ Valid A s' ∧
      s'.heap.initialized = s.heap.initialized ∧
      s'.live = s.live.filter fun b => b.1 ∉ calls.map FreeCall.data := by
  induction calls generalizing s with
  | nil => exact ⟨[], s, rfl, by simp, hv, rfl, by simp⟩
  | cons x calls ih =>
    obtain ⟨hx, hnodup⟩ := List.nodup_cons.mp hnodup
    obtain ⟨hlx, hl⟩ := List.forall_mem_cons.mp hl
    obtain ⟨hdata, hlive⟩ := List.forall_mem_cons.mp hlive
    obtain ⟨h', hstep, hi', hv'⟩ := step_free hv hlx hdata
    have hi : s.heap.initialized = true := by
      cases hv with
      | fresh h0 hnil => simp [hnil] at hdata
      | laidOut cs hL => exact hL.initialized
    -- the other blocks are still held
    have hlive' : ∀ y ∈ calls, ∃ n, (y.data, n) ∈ s.live.filter fun b => b.1 ≠ x.data := by
      intro y hy
      obtain ⟨n, hn⟩ := hlive y hy
      refine ⟨n, List.mem_filter.mpr ⟨hn, decide_eq_true fun heq => hx ?_⟩⟩
      exact heq ▸ List.mem_map_of_mem hy
    obtain ⟨tr', s', hexec, hout, hvs', his', hlives'⟩ := ih hv' hnodup hlive' hl
    refine ⟨_, s', Machine.exec_cons hlx hstep hexec, List.forall_mem_cons.mpr ⟨rfl, hout⟩, hvs',
      his'.trans (hi'.trans hi.symm), ?_⟩
    rw [hlives', List.filter_filter]
    refine List.filter_congr fun b _ => ?_
    rw [List.map_cons, Bool.eq_iff_iff]
    simp [and_comm]

/-- The address of a block held is a pointer. -/
private theorem Valid.lt_of_live (hv : Valid A s) {n : ℕ} (hp : (p, n) ∈ s.live) : p < 2 ^ 64 := by
  cases hv with
  | fresh _ hnil => simp [hnil] at hp
  | laidOut cs hL _ hperm =>
    have hbounds := block_bounds hL.tiles (hperm.mem_iff.mp hp)
    have hfits := A.fits
    omega

/-- **Blocks can be released in any order.** Whichever way distinct blocks `S` that are held are
released, every call succeeds and the layout that is left is the same; and when all blocks held
are released it is the single free entry of a heap that has just been initialized. -/
theorem frees_any_order (hr : Run (machine A) (start A) tr s) (hS : S.Nodup)
    (hlive : ∀ p ∈ S, ∃ n, (p, n) ∈ s.live) :
    ∃ L, (∀ calls : List FreeCall, (calls.map FreeCall.data).Perm S →
        (∀ x ∈ calls, legal s x.op) →
        ∃ tr' s', (machine A).exec s (calls.map FreeCall.op) = some (tr', s') ∧
          (∀ e ∈ tr', e.out = .freed none) ∧ HasLayout s'.heap L ∧
          s'.live = s.live.filter fun b => b.1 ∉ S) ∧
      (s.heap.initialized = true → (∀ b ∈ s.live, b.1 ∈ S) →
        L = [⟨A.addr, 0, 0, 1, heapSize - entrySize⟩]) := by
  have hv := valid_of_run hr
  -- the layout is the one that the order of the list leads to
  obtain ⟨tr₀, s₀, -, -, hv₀, hi₀, hlive₀⟩ := exec_frees hv (S.map fun p => ⟨p, 0, 0⟩)
    (by simpa [Function.comp_def] using hS) (by simpa using hlive) (by
      intro x hx
      obtain ⟨p, hp, rfl⟩ := List.mem_map.mp hx
      obtain ⟨n, hn⟩ := hlive p hp
      exact ⟨hv.lt_of_live hn, Nat.two_pow_pos 64, show (-2 ^ 31 : ℤ) ≤ 0 by decide,
        show (0 : ℤ) < 2 ^ 31 by decide⟩)
  have hmap : (S.map fun p => (⟨p, 0, 0⟩ : FreeCall)).map FreeCall.data = S := by
    simp [Function.comp_def]
  rw [hmap] at hlive₀
  cases hi : s.heap.initialized with
  | false =>
    refine ⟨[], fun calls hperm hl => ?_, fun h1 => absurd h1 (by decide)⟩
    obtain ⟨tr', s', hexec, hout, -, hi', hlive'⟩ := exec_frees hv calls
      (hperm.nodup_iff.mpr hS) (fun x hx => hlive _ (hperm.mem_iff.mp (List.mem_map_of_mem hx))) hl
    refine ⟨tr', s', hexec, hout, ?_, ?_⟩
    · rw [HasLayout, hi', hi]
      rfl
    · simpa only [hperm.mem_iff] using hlive'
  | true =>
    -- two valid heaps with the same blocks in use have the same chunks
    obtain ⟨cs, hL, -⟩ := hv₀.layout_unique hv₀ (hi₀.trans hi) (hi₀.trans hi) (.refl _)
    refine ⟨entryViews 0 cs, fun calls hperm hl => ?_, fun _ hall => ?_⟩
    · obtain ⟨tr', s', hexec, hout, hv', hi', hlive'⟩ := exec_frees hv calls
        (hperm.nodup_iff.mpr hS) (fun x hx => hlive _ (hperm.mem_iff.mp (List.mem_map_of_mem hx)))
        hl
      simp only [hperm.mem_iff] at hlive'
      obtain ⟨cs', hL', hLs'⟩ := hv₀.layout_unique hv' (hi₀.trans hi) (hi'.trans hi)
        (by rw [hlive₀, hlive'])
      obtain rfl := hL.unique hL'
      exact ⟨tr', s', hexec, hout, hLs'.hasLayout, hlive'⟩
    · have hnil : s₀.live = [] := by
        rw [hlive₀, List.filter_eq_nil_iff]
        intro b hb
        simpa using hall b hb
      rw [hL.unique (hv₀.layout_of_nil (hi₀.trans hi) hnil)]
      rfl

/-- A session that allocates three blocks. -/
def threeBlocks : List Op := [.malloc 100 8 21, .malloc 0 8 22, .malloc 7 8 23]

private theorem exec_threeBlocks :
    ((machine lowArena).exec (start lowArena) threeBlocks).isSome := by
  decide +kernel

/-- The trace of three allocations and the state they lead to. -/
def threeBlocksRun : List (Event Config Op Answer) × Config :=
  ((machine lowArena).exec (start lowArena) threeBlocks).get exec_threeBlocks

theorem run_threeBlocks :
    Run (machine lowArena) (start lowArena) threeBlocksRun.1 threeBlocksRun.2 :=
  Machine.run_get exec_threeBlocks

/-- The calls that release the three blocks, the one in the middle first. -/
def middleFirst : List FreeCall := [⟨4276, 8, 31⟩, ⟨4136, 8, 32⟩, ⟨4316, 8, 33⟩]

/-- The calls that release the three blocks, the one in the middle last. -/
def middleLast : List FreeCall := [⟨4316, 8, 31⟩, ⟨4136, 8, 32⟩, ⟨4276, 8, 33⟩]

/-- Three blocks released in two orders. -/
theorem frees_any_order_threeBlocks :
    (∃ tr' s', (machine lowArena).exec threeBlocksRun.2 (middleFirst.map FreeCall.op)
        = some (tr', s') ∧ HasLayout s'.heap [⟨4096, 0, 0, 1, 4960⟩]) ∧
      ∃ tr' s', (machine lowArena).exec threeBlocksRun.2 (middleLast.map FreeCall.op)
        = some (tr', s') ∧ HasLayout s'.heap [⟨4096, 0, 0, 1, 4960⟩] := by
  obtain ⟨L, hcalls, hall⟩ := frees_any_order run_threeBlocks
    (show [4136, 4276, 4316].Nodup by decide) (by
      have hlive : threeBlocksRun.2.live = [(4316, 7), (4276, 0), (4136, 100)] := by
        decide +kernel
      simp [hlive])
  obtain rfl := hall (by decide +kernel) (by decide +kernel)
  obtain ⟨tr₁, s₁, hexec₁, -, hL₁, -⟩ := hcalls middleFirst (by decide) (by decide)
  obtain ⟨tr₂, s₂, hexec₂, -, hL₂, -⟩ := hcalls middleLast (by decide) (by decide)
  exact ⟨⟨tr₁, s₁, hexec₁, hL₁⟩, tr₂, s₂, hexec₂, hL₂⟩

/-! ### Releasing a block that has just been allocated -/

/-- **`customFree` undoes `customMalloc`**: releasing a block right after it was allocated
restores the layout there was before. -/
theorem free_malloc (hr : Run (machine A) (start A) tr s) (hi : s.heap.initialized = true)
    {size file file' : ℕ} {callerLine callerLine' : ℤ} {r : Option Report}
    (hl : legal s (.malloc size file callerLine))
    (hstep : step A s (.malloc size file callerLine) = some (s₁, .pointer p r)) (hp : p ≠ 0)
    (hl' : legal s₁ (.free p file' callerLine')) :
    ∃ s₂ L, step A s₁ (.free p file' callerLine') = some (s₂, .freed none) ∧
      HasLayout s.heap L ∧ HasLayout s₂.heap L ∧ s₂.live = s.live := by
  have hv := valid_of_run hr
  have hocc : Event.Occurs (machine A) ⟨s, .malloc size file callerLine, .pointer p r, s₁⟩ :=
    ⟨hl, hstep⟩
  have heff := Effect.of_occurs hocc hv
  have hv₁ := heff.valid hv
  obtain ⟨p', r', h₁, hout, -, -, hlive⟩ := heff.callContract hv
  obtain ⟨rfl, rfl⟩ := Answer.pointer.inj hout
  have hlive : s₁.live = (p, size) :: s.live := hlive hp
  obtain ⟨h₂, hfree, hi₂, hv₂⟩ := step_free hv₁ hl' ⟨size, hlive ▸ List.mem_cons_self⟩
  -- no other block held starts there
  have hlive₂ : (s₁.live.filter fun b => b.1 ≠ p) = s.live := by
    have hnodup := hv₁.starts_nodup
    rw [hlive, List.map_cons, List.nodup_cons] at hnodup
    rw [hlive, List.filter_cons_of_neg (by simp), List.filter_eq_self]
    exact fun b hb => decide_eq_true fun heq => hnodup.1 (List.mem_map.mpr ⟨b, hb, heq⟩)
  obtain ⟨cs, hL, hL₂⟩ := hv.layout_unique hv₂ hi hi₂ (hlive₂ ▸ .refl _)
  exact ⟨_, _, hfree, hL.hasLayout, hL₂.hasLayout, hlive₂⟩

/-- A fourth block that leaves no byte behind it, released again. -/
theorem free_malloc_fourthBlock : ∃ s₁ s₂ L,
    step lowArena threeBlocksRun.2 (.malloc 4693 8 24) = some (s₁, .pointer 4363 none) ∧
      step lowArena s₁ (.free 4363 8 25) = some (s₂, .freed none) ∧
      HasLayout threeBlocksRun.2.heap L ∧ HasLayout s₂.heap L := by
  have hout : (step lowArena threeBlocksRun.2 (.malloc 4693 8 24)).map Prod.snd
      = some (.pointer 4363 none) := by
    decide +kernel
  obtain ⟨⟨s₁, out⟩, hstep, rfl⟩ := Option.map_eq_some_iff.mp hout
  obtain ⟨s₂, L, hfree, hL, hL₂, -⟩ := free_malloc run_threeBlocks (by decide +kernel)
    (by decide) hstep (by decide) (show (4363 : ℕ) < 2 ^ 64 ∧ (8 : ℕ) < 2 ^ 64 ∧
      (-2 ^ 31 : ℤ) ≤ 25 ∧ (25 : ℤ) < 2 ^ 31 by decide)
  exact ⟨s₁, s₂, L, hstep, hfree, hL, hL₂⟩

end Cs214.EnhancedMalloc

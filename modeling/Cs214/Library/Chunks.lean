import Mathlib.Algebra.GroupWithZero.Nat
import Mathlib.Data.List.Chain
import Mathlib.Data.List.Nodup

/-!
# Chunked arenas

A chunked arena is a range of addresses tiled by chunks, each a header of `e` bytes followed
by `size` bytes of data, of which some are free. This file is the theory of the two moves of
a first-fit allocator with boundary merging: a free chunk is split into a used one and a free
remainder, and a used chunk is freed and glued to its free neighbours.

`Tiles e lo hi cs` says that the chunks `cs` fill `[lo, hi)` without a gap, `Coalesced cs`
that no two neighbours are both free, and `blocks e cs` lists the data ranges in use. The
moves keep the first two, and on the third they are the insertion and the removal of one
block. As the blocks determine the chunks (`Tiles.eq_of_blocks`), it does not matter which moves
led to them.
-/

namespace Cs214

/-- A chunk: the address of its header, the number of its data bytes, and whether it is
free. -/
structure Chunk where
  addr : ℕ
  size : ℕ
  free : Bool
  deriving DecidableEq

namespace Chunk

variable {e lo mid hi n : ℕ} {c d : Chunk} {cs ds l l₁ l₂ : List Chunk}

/-- The chunks fill the addresses from `lo` to `hi`. -/
def Tiles (e : ℕ) : ℕ → ℕ → List Chunk → Prop
  | lo, hi, [] => lo = hi
  | lo, hi, c :: cs => c.addr = lo ∧ Tiles e (lo + e + c.size) hi cs

/-- No two neighbours are both free. -/
def Coalesced (cs : List Chunk) : Prop := cs.IsChain fun c d => ¬(c.free ∧ d.free)

/-- The data ranges in use: address and length. -/
def blocks (e : ℕ) (cs : List Chunk) : List (ℕ × ℕ) :=
  (cs.filter fun c => !c.free).map fun c => (c.addr + e, c.size)

/-- Give the first `n` data bytes of `c` to a client; the rest becomes a free chunk. -/
def split (e n : ℕ) (c : Chunk) : List Chunk :=
  [⟨c.addr, n, false⟩, ⟨c.addr + e + n, c.size - n - e, true⟩]

/-- Put `c` in front of `cs`, as one chunk with the first of them when both are free. -/
def glue (e : ℕ) (c : Chunk) : List Chunk → List Chunk
  | [] => [c]
  | d :: cs => if c.free ∧ d.free then ⟨c.addr, c.size + e + d.size, true⟩ :: cs else c :: d :: cs

/-! ### Tilings -/

namespace Tiles

theorem append_iff : Tiles e lo hi (l₁ ++ l₂) ↔ ∃ mid, Tiles e lo mid l₁ ∧ Tiles e mid hi l₂ := by
  induction l₁ generalizing lo with
  | nil => simp [Tiles]
  | cons c l₁ ih => simp [Tiles, ih, and_assoc]

/-- A tiling ends where it starts or behind. -/
theorem le (h : Tiles e lo hi cs) : lo ≤ hi := by
  induction cs generalizing lo with
  | nil => exact h.le
  | cons c cs ih =>
    have := ih h.2
    omega

/-- Every chunk lies in the range tiled. -/
theorem bounds (h : Tiles e lo hi cs) (hc : c ∈ cs) :
    lo ≤ c.addr ∧ c.addr + e + c.size ≤ hi := by
  induction cs generalizing lo with
  | nil => cases hc
  | cons d cs ih =>
    obtain ⟨hd, ht⟩ := h
    rcases List.mem_cons.mp hc with rfl | hc
    · exact ⟨hd.ge, hd ▸ ht.le⟩
    · have := ih ht hc
      omega

/-- Chunks do not overlap, and stand in the order of their addresses. -/
theorem pairwise (h : Tiles e lo hi cs) :
    cs.Pairwise fun c d => c.addr + e + c.size ≤ d.addr := by
  induction cs generalizing lo with
  | nil => exact .nil
  | cons c cs ih =>
    obtain ⟨hc, ht⟩ := h
    refine List.pairwise_cons.mpr ⟨fun d hd => ?_, ih ht⟩
    have := (ht.bounds hd).1
    omega

/-- The chunks before a chunk end before its header. -/
theorem before (h : Tiles e lo hi (l₁ ++ c :: l₂)) (hd : d ∈ l₁) :
    d.addr + e + d.size ≤ c.addr :=
  (List.pairwise_append.mp h.pairwise).2.2 d hd c (by simp)

/-- The chunks behind a chunk start behind its data. -/
theorem behind (h : Tiles e lo hi (l₁ ++ c :: l₂)) (hd : d ∈ l₂) :
    c.addr + e + c.size ≤ d.addr :=
  (List.pairwise_cons.mp (List.pairwise_append.mp h.pairwise).2.1).1 d hd

/-- Headers do not overlap. -/
theorem apart (h : Tiles e lo hi cs) (hc : c ∈ cs) (hd : d ∈ cs) :
    c = d ∨ c.addr + e + c.size ≤ d.addr ∨ d.addr + e + d.size ≤ c.addr := by
  have hpw := h.pairwise
  refine List.Pairwise.forall_of_forall_of_flip
    (R := fun c d => c = d ∨ c.addr + e + c.size ≤ d.addr ∨ d.addr + e + d.size ≤ c.addr)
    (fun c _ => .inl rfl) ?_ ?_ hc hd
  · exact hpw.imp fun hle => .inr (.inl hle)
  · exact hpw.imp fun hle => .inr (.inr hle)

/-- Each chunk starts where the one before ends. -/
theorem isChain (h : Tiles e lo hi cs) : cs.IsChain fun c d => d.addr = c.addr + e + c.size := by
  induction cs generalizing lo with
  | nil => exact List.isChain_nil
  | cons c cs ih =>
    obtain ⟨hc, ht⟩ := h
    refine List.isChain_cons.mpr ⟨fun d hd => ?_, ih ht⟩
    cases cs with
    | nil => cases hd
    | cons f cs =>
      obtain rfl := Option.some.inj hd
      rw [ht.1, hc]

/-- The last chunk ends where the range ends. -/
theorem getLast (h : Tiles e lo hi cs) (hc : c ∈ cs.getLast?) : c.addr + e + c.size = hi := by
  rcases List.eq_nil_or_concat cs with rfl | ⟨l, d, rfl⟩
  · cases hc
  · rw [List.concat_eq_append] at h hc
    rw [List.getLast?_concat] at hc
    obtain rfl := Option.some.inj hc
    obtain ⟨mid, -, hd, hend⟩ := append_iff.mp h
    rw [hd]
    exact hend

/-- The number of chunks is bounded by the room for their headers. -/
theorem length_mul_le (h : Tiles e lo hi cs) : lo + cs.length * e ≤ hi := by
  induction cs generalizing lo with
  | nil => simpa using Tiles.le h
  | cons c cs ih =>
    have := ih h.2
    rw [List.length_cons, Nat.succ_mul]
    omega

/-- Headers and data add up to the range tiled. -/
theorem sum_eq (h : Tiles e lo hi cs) : lo + (cs.map fun c => e + c.size).sum = hi := by
  induction cs generalizing lo with
  | nil =>
    have hend : lo = hi := h
    simpa using hend
  | cons c cs ih =>
    have := ih h.2
    rw [List.map_cons, List.sum_cons]
    omega

/-- **Splitting** keeps the tiling. -/
theorem split (h : Tiles e lo hi (l₁ ++ c :: l₂)) (hn : n + e ≤ c.size) :
    Tiles e lo hi (l₁ ++ c.split e n ++ l₂) := by
  obtain ⟨mid, h₁, hc, h₂⟩ := append_iff.mp h
  have hend : mid + e + n + e + (c.size - n - e) = mid + e + c.size := by omega
  rw [List.append_assoc]
  refine append_iff.mpr ⟨mid, h₁, hc, by rw [hc], ?_⟩
  rw [hend]
  exact h₂

/-- Two neighbours as one chunk. -/
theorem merge (h : Tiles e lo hi (l₁ ++ c :: d :: l₂)) (b : Bool) :
    Tiles e lo hi (l₁ ++ ⟨c.addr, c.size + e + d.size, b⟩ :: l₂) := by
  obtain ⟨mid, h₁, hc, -, h₂⟩ := append_iff.mp h
  have hend : mid + e + (c.size + e + d.size) = mid + e + c.size + e + d.size := by omega
  exact append_iff.mpr ⟨mid, h₁, hc, by simpa only [hend] using h₂⟩

/-- Tilings ignore what is free. -/
theorem setFree (h : Tiles e lo hi (l₁ ++ c :: l₂)) (b : Bool) :
    Tiles e lo hi (l₁ ++ { c with free := b } :: l₂) := by
  obtain ⟨mid, h₁, hc, h₂⟩ := append_iff.mp h
  exact append_iff.mpr ⟨mid, h₁, hc, h₂⟩

end Tiles

/-! ### Blocks in use -/

theorem blocks_append (e : ℕ) (l₁ l₂ : List Chunk) :
    blocks e (l₁ ++ l₂) = blocks e l₁ ++ blocks e l₂ := by
  simp [blocks]

theorem blocks_cons_of_free (h : c.free = true) : blocks e (c :: cs) = blocks e cs := by
  simp [blocks, h]

theorem blocks_cons_of_used (h : c.free = false) :
    blocks e (c :: cs) = (c.addr + e, c.size) :: blocks e cs := by
  simp [blocks, h]

/-- A block in use is the data of a used chunk. -/
theorem mem_blocks {p : ℕ × ℕ} :
    p ∈ blocks e cs ↔ ∃ c ∈ cs, c.free = false ∧ p = (c.addr + e, c.size) := by
  simp only [blocks, List.mem_map, List.mem_filter, Bool.not_eq_true', and_assoc, eq_comm (b := p)]

/-- Splitting adds one block. -/
theorem blocks_split (hc : c.free = true) :
    blocks e (l₁ ++ c.split e n ++ l₂) = blocks e l₁ ++ (c.addr + e, n) :: blocks e l₂ ∧
      blocks e (l₁ ++ c :: l₂) = blocks e l₁ ++ blocks e l₂ := by
  simp [blocks, split, hc]

/-- Gluing leaves the blocks in use alone. -/
theorem blocks_glue (e : ℕ) (c : Chunk) (cs : List Chunk) :
    blocks e (c.glue e cs) = blocks e (c :: cs) := by
  cases cs with
  | nil => rfl
  | cons d cs =>
    rw [glue]
    split
    · rename_i h
      simp [blocks, h.1, h.2]
    · rfl

/-- Blocks in use lie in the range tiled, behind a header. -/
theorem block_bounds {p n : ℕ} (h : Tiles e lo hi cs) (hp : (p, n) ∈ blocks e cs) :
    lo + e ≤ p ∧ p + n ≤ hi := by
  obtain ⟨c, hc, -, heq⟩ := mem_blocks.mp hp
  obtain ⟨rfl, rfl⟩ := Prod.mk.inj heq
  have := h.bounds hc
  omega

/-- Blocks in use are disjoint, with a header between any two of them. -/
theorem blocks_pairwise (h : Tiles e lo hi cs) :
    (blocks e cs).Pairwise fun p q => p.1 + p.2 + e ≤ q.1 := by
  rw [blocks, List.pairwise_map]
  refine (h.pairwise.sublist List.filter_sublist).imp fun hle => ?_
  simp only
  omega

/-- Blocks in use do not reach into a header. -/
theorem block_header {p n : ℕ} (h : Tiles e lo hi cs) (hp : (p, n) ∈ blocks e cs) (hc : c ∈ cs) :
    c.addr + e ≤ p ∨ p + n ≤ c.addr := by
  obtain ⟨d, hd, -, heq⟩ := mem_blocks.mp hp
  obtain ⟨rfl, rfl⟩ := Prod.mk.inj heq
  rcases h.apart hc hd with rfl | hle | hle <;> omega

/-! ### Coalescing -/

theorem Coalesced.append_iff : Coalesced (l₁ ++ l₂) ↔ Coalesced l₁ ∧ Coalesced l₂ ∧
    ∀ c ∈ l₁.getLast?, ∀ d ∈ l₂.head?, ¬(c.free ∧ d.free) :=
  List.isChain_append

theorem Coalesced.cons_iff : Coalesced (c :: cs) ↔
    (∀ d ∈ cs.head?, ¬(c.free ∧ d.free)) ∧ Coalesced cs :=
  List.isChain_cons

/-- Splitting a free chunk makes no two free neighbours. -/
theorem Coalesced.split (h : Coalesced (l₁ ++ c :: l₂)) (hc : c.free = true) (e n : ℕ) :
    Coalesced (l₁ ++ c.split e n ++ l₂) := by
  obtain ⟨h₁, h₂, -⟩ := Coalesced.append_iff.mp h
  obtain ⟨hnext, h₂⟩ := Coalesced.cons_iff.mp h₂
  have hrest : Coalesced (⟨c.addr + e + n, c.size - n - e, true⟩ :: l₂) :=
    Coalesced.cons_iff.mpr ⟨fun d hd hboth => hnext d hd ⟨hc, hboth.2⟩, h₂⟩
  rw [List.append_assoc]
  refine Coalesced.append_iff.mpr ⟨h₁, Coalesced.cons_iff.mpr ⟨by simp, hrest⟩, ?_⟩
  simp [Chunk.split]

/-- Gluing makes no two free neighbours when the chunk before is used. -/
theorem Coalesced.glue (h₁ : Coalesced l₁) (hlast : ∀ b ∈ l₁.getLast?, b.free = false)
    (h₂ : Coalesced l₂) (e : ℕ) (c : Chunk) : Coalesced (l₁ ++ c.glue e l₂) := by
  refine Coalesced.append_iff.mpr ⟨h₁, ?_, fun b hb d _ hboth => ?_⟩
  · cases l₂ with
    | nil => exact List.isChain_singleton _
    | cons d l₂ =>
      obtain ⟨hnext, hl₂⟩ := Coalesced.cons_iff.mp h₂
      rw [Chunk.glue]
      split
      · rename_i hfree
        exact Coalesced.cons_iff.mpr ⟨fun f hf hboth => hnext f hf ⟨hfree.2, hboth.2⟩, hl₂⟩
      · rename_i hfree
        exact Coalesced.cons_iff.mpr ⟨by simpa using hfree, h₂⟩
  · simp [hlast b hb] at hboth

/-! ### Releasing a chunk -/

/-- Free the chunk `c` behind `l₁`, as one chunk with the one before when that is free: what
is left of `l₁`, and the free chunk. -/
def absorb (e : ℕ) (l₁ : List Chunk) (c : Chunk) : List Chunk × Chunk :=
  match l₁.getLast? with
  | some b =>
    if b.free then (l₁.dropLast, ⟨b.addr, b.size + e + c.size, true⟩)
    else (l₁, { c with free := true })
  | none => (l₁, { c with free := true })

/-- Free the chunk `c` between `l₁` and `l₂`, gluing it to its free neighbours. -/
def release (e : ℕ) (l₁ : List Chunk) (c : Chunk) (l₂ : List Chunk) : List Chunk :=
  (absorb e l₁ c).1 ++ (absorb e l₁ c).2.glue e l₂

/-- The two cases of `absorb`. -/
theorem absorb_cases (e : ℕ) (l₁ : List Chunk) (c : Chunk) :
    (∃ l₀ b, l₁ = l₀ ++ [b] ∧ b.free = true ∧
      absorb e l₁ c = (l₀, ⟨b.addr, b.size + e + c.size, true⟩)) ∨
    ((∀ b ∈ l₁.getLast?, b.free = false) ∧ absorb e l₁ c = (l₁, { c with free := true })) := by
  rcases List.eq_nil_or_concat l₁ with rfl | ⟨l₀, b, rfl⟩
  · exact .inr ⟨by simp, rfl⟩
  · rw [List.concat_eq_append]
    cases hb : b.free
    · exact .inr ⟨by simp [hb], by simp [absorb, hb]⟩
    · exact .inl ⟨l₀, b, rfl, hb, by simp [absorb, hb]⟩

/-- Whether the chunk was free before does not matter. -/
theorem absorb_setFree (e : ℕ) (l₁ : List Chunk) (c : Chunk) (b : Bool) :
    absorb e l₁ { c with free := b } = absorb e l₁ c := rfl

/-- Gluing makes no new header. -/
private theorem map_addr_glue (e : ℕ) (c : Chunk) (cs : List Chunk) :
    ((c.glue e cs).map addr).Sublist ((c :: cs).map addr) := by
  cases cs with
  | nil => exact .refl _
  | cons d cs =>
    rw [glue]
    split_ifs
    · exact ((List.Sublist.refl _).cons d.addr).cons_cons c.addr
    · exact .refl _

/-- Nor does putting a chunk to a free one before it. -/
theorem map_addr_absorb (e : ℕ) (l₁ l₂ : List Chunk) (c : Chunk) :
    (((absorb e l₁ c).1 ++ (absorb e l₁ c).2 :: l₂).map addr).Sublist
      ((l₁ ++ c :: l₂).map addr) := by
  rcases absorb_cases e l₁ c with ⟨l₀, b, rfl, -, habs⟩ | ⟨-, habs⟩
  · rw [habs, List.append_assoc, List.map_append, List.map_append]
    exact (((List.Sublist.refl _).cons c.addr).cons_cons b.addr).append_left _
  · rw [habs, List.map_append, List.map_append]
    exact .refl _

/-- Releasing a chunk makes no new header. -/
theorem map_addr_release (e : ℕ) (l₁ l₂ : List Chunk) (c : Chunk) :
    ((release e l₁ c l₂).map addr).Sublist
      (((absorb e l₁ c).1 ++ (absorb e l₁ c).2 :: l₂).map addr) := by
  rw [release, List.map_append, List.map_append]
  exact (map_addr_glue e _ l₂).append_left _

/-- Gluing makes a free chunk no smaller. -/
private theorem exists_mem_glue (hc : c.free = true) (e : ℕ) (cs : List Chunk) :
    ∃ t ∈ c.glue e cs, t.free = true ∧ c.size ≤ t.size := by
  cases cs with
  | nil => exact ⟨c, by simp [glue], hc, le_rfl⟩
  | cons d cs =>
    rw [glue]
    split_ifs
    · exact ⟨_, List.mem_cons_self, rfl, Nat.le_add_right_of_le (Nat.le_add_right _ _)⟩
    · exact ⟨c, List.mem_cons_self, hc, le_rfl⟩

/-- **Room for what was released** and one more header: there is a free chunk as large after `c`
is released if a neighbour of `c` was free, or another chunk was as large before. -/
theorem exists_room_release (he : 0 < e) (hc : c.free = false) :
    (∃ t ∈ release e l₁ c l₂, t.free = true ∧ c.size + e ≤ t.size) ↔
      (∃ b ∈ l₁.getLast?, b.free = true) ∨ (∃ d ∈ l₂.head?, d.free = true) ∨
        ∃ t ∈ l₁ ++ c :: l₂, t.free = true ∧ c.size + e ≤ t.size := by
  rcases absorb_cases e l₁ c with ⟨l₀, b, rfl, hb, habs⟩ | ⟨hlast, habs⟩
  · -- the chunk in front takes over
    refine iff_of_true ?_ (.inl ⟨b, by simp, hb⟩)
    obtain ⟨t, ht, hfree, hsize⟩ :=
      exists_mem_glue (c := ⟨b.addr, b.size + e + c.size, true⟩) rfl e l₂
    have hroom : c.size + e ≤ b.size + e + c.size := by omega
    rw [release, habs]
    exact ⟨t, List.mem_append_right _ ht, hfree, hroom.trans hsize⟩
  · by_cases hnext : ∃ d ∈ l₂.head?, d.free = true
    · -- the chunk behind is taken over
      refine iff_of_true ?_ (.inr (.inl hnext))
      obtain ⟨d, hd, hfree⟩ := hnext
      rw [release, habs, List.eq_cons_of_mem_head? hd]
      refine ⟨⟨c.addr, c.size + e + d.size, true⟩, ?_, rfl, Nat.le_add_right _ _⟩
      simp [glue, hfree]
    · have hprev : ¬∃ b ∈ l₁.getLast?, b.free = true := by
        rintro ⟨b, hb, hfree⟩
        simp [hlast b hb] at hfree
      have hrelease : release e l₁ c l₂ = l₁ ++ { c with free := true } :: l₂ := by
        rw [release, habs]
        cases l₂ with
        | nil => rfl
        | cons d l₂ =>
          have hd : ¬d.free = true := fun hfree => hnext ⟨d, rfl, hfree⟩
          simp [glue, hd]
      have hself : ¬c.size + e ≤ c.size := by omega
      rw [hrelease, or_iff_right hprev, or_iff_right hnext]
      simp only [List.mem_append, List.mem_cons, or_and_right, exists_or, exists_eq_left, hself, hc,
        and_false, Bool.false_eq_true, false_or]

/-- Releasing a used chunk leaves no two free neighbours. -/
theorem Coalesced.release (h : Coalesced (l₁ ++ c :: l₂)) (e : ℕ) :
    Coalesced (Chunk.release e l₁ c l₂) := by
  obtain ⟨h₁, h₂, -⟩ := Coalesced.append_iff.mp h
  obtain ⟨-, h₂⟩ := Coalesced.cons_iff.mp h₂
  rw [Chunk.release]
  rcases absorb_cases e l₁ c with ⟨l₀, b, rfl, hb, habs⟩ | ⟨hlast, habs⟩
  · rw [habs]
    obtain ⟨h₀, -, hlast⟩ := Coalesced.append_iff.mp h₁
    refine Coalesced.glue h₀ (fun a ha => ?_) h₂ e _
    simpa [hb] using hlast a ha b (by simp)
  · rw [habs]
    exact Coalesced.glue h₁ hlast h₂ e _

/-- Releasing removes one block. -/
theorem blocks_release (e : ℕ) (l₁ l₂ : List Chunk) (hc : c.free = false) :
    blocks e (release e l₁ c l₂) = blocks e l₁ ++ blocks e l₂ ∧
      blocks e (l₁ ++ c :: l₂) = blocks e l₁ ++ (c.addr + e, c.size) :: blocks e l₂ := by
  refine ⟨?_, by rw [blocks_append, blocks_cons_of_used hc]⟩
  rw [release, blocks_append, blocks_glue]
  rcases absorb_cases e l₁ c with ⟨l₀, b, rfl, hb, habs⟩ | ⟨-, habs⟩
  · rw [habs, blocks_cons_of_free rfl, blocks_append, blocks_cons_of_free hb]
    simp [blocks]
  · rw [habs, blocks_cons_of_free rfl]

/-! ### The blocks determine the chunks -/

/-- A free chunk in front of a used one reaches to the header of the first block, and without a
block behind it to the end. -/
theorem Tiles.free_end (h : Tiles e lo hi (c :: cs)) (hco : Coalesced (c :: cs))
    (hc : c.free = true) :
    c.addr + e + c.size + e = ((blocks e cs).head?.map Prod.fst).getD (hi + e) := by
  obtain ⟨haddr, ht⟩ := h
  cases cs with
  | nil =>
    have hend : lo + e + c.size = hi := ht
    simp only [blocks, List.filter_nil, List.map_nil, List.head?_nil, Option.map_none,
      Option.getD_none]
    omega
  | cons d cs =>
    have hd : d.free = false := by
      have := (Coalesced.cons_iff.mp hco).1 d rfl
      simpa [hc] using this
    have haddr' : d.addr = lo + e + c.size := ht.1
    rw [blocks_cons_of_used hd, List.head?_cons, Option.map_some, Option.getD_some]
    omega

/-- A used chunk in front gives the first block, which starts before any block behind a free
one. -/
theorem Tiles.blocks_ne (he : 0 < e) (h : Tiles e lo hi (c :: cs)) (h' : Tiles e lo hi (d :: ds))
    (hc : c.free = true) (hd : d.free = false) : blocks e (c :: cs) ≠ blocks e (d :: ds) := by
  obtain ⟨-, ht⟩ := h
  obtain ⟨haddr, -⟩ := h'
  rw [blocks_cons_of_free hc, blocks_cons_of_used hd]
  intro heq
  have hmem : (d.addr + e, d.size) ∈ blocks e cs := heq ▸ List.mem_cons_self
  have := block_bounds ht hmem
  omega

/-- **The header of a free chunk** stands at the start, or where a block in use ends. -/
theorem Tiles.mem_map_addr_iff {a : ℕ} (he : 0 < e) (h : Tiles e lo hi cs) (hco : Coalesced cs)
    (hfree : ∀ b ∈ blocks e cs, b.1 ≠ a + e) (ha : a + e ≤ hi) :
    a ∈ cs.map addr ↔ a = lo ∨ ∃ b ∈ blocks e cs, b.1 + b.2 = a := by
  induction cs generalizing lo with
  | nil =>
    have hend : lo = hi := h
    simp only [List.map_nil, List.not_mem_nil, blocks, List.filter_nil, false_and, exists_false,
      or_false, false_iff]
    omega
  | cons c cs ih =>
    obtain ⟨haddr, ht⟩ := h
    obtain ⟨hnext, hco⟩ := Coalesced.cons_iff.mp hco
    rw [List.map_cons, List.mem_cons, haddr]
    refine or_congr_right ?_
    cases hc : c.free with
    | false =>
      rw [blocks_cons_of_used hc] at hfree ⊢
      rw [ih ht hco (List.forall_mem_cons.mp hfree).2, List.exists_mem_cons_iff, haddr]
      exact or_congr_left eq_comm
    | true =>
      rw [blocks_cons_of_free hc] at hfree ⊢
      rw [ih ht hco hfree]
      refine or_iff_right fun heq => ?_
      -- the chunk behind a free one is in use
      cases cs with
      | nil =>
        have hend : lo + e + c.size = hi := ht
        omega
      | cons d cs =>
        have hd : d.free = false := by simpa [hc] using hnext d rfl
        rw [blocks_cons_of_used hd] at hfree
        exact hfree _ List.mem_cons_self (by rw [ht.1, heq])

/-- **The blocks determine the chunks** of a tiling without two free neighbours. -/
theorem Tiles.eq_of_blocks (he : 0 < e) (h : Tiles e lo hi cs) (h' : Tiles e lo hi ds)
    (hco : Coalesced cs) (hco' : Coalesced ds) (hblocks : blocks e cs = blocks e ds) :
    cs = ds := by
  induction cs generalizing lo ds with
  | nil =>
    cases ds with
    | nil => rfl
    | cons d ds =>
      have hend : lo = hi := h
      have := h'.bounds List.mem_cons_self
      omega
  | cons c cs ih =>
    cases ds with
    | nil =>
      have hend : lo = hi := h'
      have := h.bounds List.mem_cons_self
      omega
    | cons d ds =>
      have haddr : c.addr = d.addr := h.1.trans h'.1.symm
      -- both chunks are free or both are used, and then they are equally long
      have hcd : c.free = d.free ∧ c.size = d.size ∧ blocks e cs = blocks e ds := by
        cases hc : c.free <;> cases hd : d.free
        · rw [blocks_cons_of_used hc, blocks_cons_of_used hd, List.cons.injEq,
            Prod.mk.injEq] at hblocks
          exact ⟨rfl, hblocks.1.2, hblocks.2⟩
        · exact absurd hblocks.symm (h'.blocks_ne he h hd hc)
        · exact absurd hblocks (h.blocks_ne he h' hc hd)
        · -- two free chunks end where the next block in use starts
          have hend := h.free_end hco hc
          have hend' := h'.free_end hco' hd
          rw [blocks_cons_of_free hc, blocks_cons_of_free hd] at hblocks
          rw [hblocks] at hend
          exact ⟨rfl, by omega, hblocks⟩
      have heq : c = d := by
        cases c
        cases d
        simp_all
      subst heq
      rw [ih h.2 h'.2 (Coalesced.cons_iff.mp hco).2 (Coalesced.cons_iff.mp hco').2 hcd.2.2]

end Chunk

end Cs214

import Cs214.Library.Chunks
import Mathlib.Data.Finset.Max

/-!
# First fit, told by the blocks in use

A client of an allocator knows the blocks it holds, and nothing of the headers between them. In a
range without two free neighbours the blocks tell the rest: where the headers stand
(`mem_headers_iff`), which addresses are inside of data (`inner_iff`), and where the first free
chunk with room for a block is (`firstFit_eq`). It starts at the lowest address at which the block
fits between the others.
-/

namespace Cs214.Chunk

variable {a e lo hi n p x : ℕ} {c : Chunk} {cs : List Chunk} {B : Finset (ℕ × ℕ)}

/-! ### Headers -/

/-- The headers: at the start of the range, behind each block and in front of it. -/
def headers (e lo hi : ℕ) (B : Finset (ℕ × ℕ)) : Finset ℕ :=
  (insert lo (B.image (fun b => b.1 + b.2) ∪ B.image fun b => b.1 - e)).filter (· + e ≤ hi)

/-- **The blocks tell the headers.** -/
theorem mem_headers_iff (he : 0 < e) (h : Tiles e lo hi cs) (hco : Coalesced cs)
    (hB : ∀ b, b ∈ B ↔ b ∈ blocks e cs) : a ∈ headers e lo hi B ↔ a ∈ cs.map addr := by
  simp only [headers, Finset.mem_filter, Finset.mem_insert, Finset.mem_union, Finset.mem_image, hB]
  by_cases ha : a + e ≤ hi
  · rw [and_iff_left ha]
    by_cases hused : ∃ b ∈ blocks e cs, b.1 = a + e
    · -- the header of a block
      obtain ⟨b, hb, hba⟩ := hused
      obtain ⟨c, hc, -, rfl⟩ := mem_blocks.mp hb
      refine iff_of_true (.inr (.inr ⟨_, hb, ?_⟩)) (List.mem_map.mpr ⟨c, hc, ?_⟩)
      · dsimp only at hba ⊢
        omega
      · dsimp only at hba
        omega
    · rw [h.mem_map_addr_iff he hco (fun b hb hba => hused ⟨b, hb, hba⟩) ha]
      refine or_congr_right (or_iff_left ?_)
      rintro ⟨b, hb, hba⟩
      have := (block_bounds h hb).1
      exact hused ⟨b, hb, by omega⟩
  · refine iff_of_false (fun hmem => ha hmem.2) fun hmem => ?_
    obtain ⟨c, hc, rfl⟩ := List.mem_map.mp hmem
    have := (h.bounds hc).2
    omega

/-! ### Inside of data -/

/-- The address is in the range, but neither in a header nor right behind one. -/
def Inner (e lo hi : ℕ) (B : Finset (ℕ × ℕ)) (x : ℕ) : Prop :=
  lo ≤ x ∧ x < hi ∧ ∀ a ∈ headers e lo hi B, x < a ∨ a + e < x

instance : Decidable (Inner e lo hi B x) :=
  inferInstanceAs (Decidable (lo ≤ x ∧ x < hi ∧ ∀ a ∈ headers e lo hi B, x < a ∨ a + e < x))

/-- Every address of the range lies in a chunk. -/
theorem Tiles.exists_mem (h : Tiles e lo hi cs) (hlo : lo ≤ x) (hhi : x < hi) :
    ∃ c ∈ cs, c.addr ≤ x ∧ x < c.addr + e + c.size := by
  induction cs generalizing lo with
  | nil =>
    have hend : lo = hi := h
    omega
  | cons c cs ih =>
    obtain ⟨haddr, ht⟩ := h
    by_cases hx : x < lo + e + c.size
    · exact ⟨c, List.mem_cons_self, by omega, by omega⟩
    · obtain ⟨d, hd, hdx⟩ := ih ht (by omega)
      exact ⟨d, List.mem_cons_of_mem c hd, hdx⟩

/-- **The blocks tell what is inside** of the data of a chunk. -/
theorem inner_iff (he : 0 < e) (h : Tiles e lo hi cs) (hco : Coalesced cs)
    (hB : ∀ b, b ∈ B ↔ b ∈ blocks e cs) :
    Inner e lo hi B x ↔ ∃ c ∈ cs, c.addr + e < x ∧ x < c.addr + e + c.size := by
  simp only [Inner, mem_headers_iff he h hco hB, List.forall_mem_map]
  constructor
  · rintro ⟨hlo, hhi, hout⟩
    obtain ⟨c, hc, hcx, hxc⟩ := h.exists_mem hlo hhi
    have := hout c hc
    exact ⟨c, hc, by omega, hxc⟩
  · rintro ⟨c, hc, hcx, hxc⟩
    have hbounds := h.bounds hc
    refine ⟨by omega, by omega, fun d hd => ?_⟩
    rcases h.apart hc hd with rfl | hle | hle <;> omega

/-! ### The first chunk that fits -/

/-- The chunk is free, and has room for a block of `n` bytes and one more header. -/
def takes (e n : ℕ) (c : Chunk) : Bool := c.free && decide (n + e ≤ c.size)

theorem takes_iff : c.takes e n = true ↔ c.free = true ∧ n + e ≤ c.size := by
  rw [takes, Bool.and_eq_true, decide_eq_true_iff]

/-- The addresses at which a block of `n` bytes fits between the blocks: a header stands in front
of it, and there is room for another one behind it. -/
def places (e lo hi : ℕ) (B : Finset (ℕ × ℕ)) (n : ℕ) : Finset ℕ :=
  ((insert lo (B.image fun b => b.1 + b.2)).image (· + e)).filter fun p =>
    p + n + e ≤ hi ∧ ∀ b ∈ B, b.1 + b.2 + e ≤ p ∨ p + n + e + e ≤ b.1

/-- **The blocks tell where a block fits.** -/
theorem mem_places_iff (he : 0 < e) (h : Tiles e lo hi cs) (hco : Coalesced cs)
    (hB : ∀ b, b ∈ B ↔ b ∈ blocks e cs) :
    p ∈ places e lo hi B n ↔ ∃ c ∈ cs, c.takes e n = true ∧ c.addr + e = p := by
  simp only [places, Finset.mem_filter, Finset.mem_image, Finset.mem_insert, hB, takes_iff]
  constructor
  · rintro ⟨⟨a, ha, rfl⟩, hend, hroom⟩
    have hfree : ∀ b ∈ blocks e cs, b.1 ≠ a + e := fun b hb heq => by
      have := hroom b hb
      omega
    obtain ⟨c, hc, rfl⟩ := List.mem_map.mp
      ((h.mem_map_addr_iff he hco hfree (by omega)).mpr (ha.imp_right id))
    have hcfree : c.free = true := by
      by_contra hused
      exact hfree _ (mem_blocks.mpr ⟨c, hc, by simpa using hused, rfl⟩) rfl
    refine ⟨c, hc, ⟨hcfree, ?_⟩, rfl⟩
    -- the chunk reaches to the next block
    obtain ⟨l₁, l₂, rfl⟩ := List.append_of_mem hc
    obtain ⟨mid, -, ht⟩ := Tiles.append_iff.mp h
    have hnext := ht.free_end (Coalesced.append_iff.mp hco).2.1 hcfree
    cases hl : (blocks e l₂).head? with
    | none =>
      rw [hl, Option.map_none, Option.getD_none] at hnext
      omega
    | some b =>
      rw [hl, Option.map_some, Option.getD_some] at hnext
      have hb : b ∈ blocks e (l₁ ++ c :: l₂) := by
        rw [blocks_append, blocks_cons_of_free hcfree]
        exact List.mem_append_right _ (List.mem_of_mem_head? hl)
      have := hroom b hb
      omega
  · rintro ⟨c, hc, ⟨hcfree, hsize⟩, rfl⟩
    have hbounds := h.bounds hc
    -- a block is another chunk
    have hother : ∀ b ∈ blocks e cs, b.1 + b.2 ≤ c.addr ∨ c.addr + e + c.size + e ≤ b.1 := by
      intro b hb
      obtain ⟨d, hd, hused, rfl⟩ := mem_blocks.mp hb
      dsimp only
      rcases h.apart hc hd with rfl | hle | hle
      · rw [hcfree] at hused
        cases hused
      · omega
      · omega
    have hfree : ∀ b ∈ blocks e cs, b.1 ≠ c.addr + e := fun b hb heq => by
      have := hother b hb
      omega
    refine ⟨⟨c.addr, ?_, rfl⟩, by omega, fun b hb => ?_⟩
    · exact (h.mem_map_addr_iff he hco hfree (by omega)).mp (List.mem_map_of_mem hc)
    · have := hother b hb
      omega

/-- The lowest address at which a block fits, and zero without one. -/
def firstFit (e lo hi : ℕ) (B : Finset (ℕ × ℕ)) (n : ℕ) : ℕ := (places e lo hi B n).min.untopD 0

/-- **The blocks tell the first fit.** -/
theorem firstFit_eq (he : 0 < e) (h : Tiles e lo hi cs) (hco : Coalesced cs)
    (hB : ∀ b, b ∈ B ↔ b ∈ blocks e cs) :
    firstFit e lo hi B n = ((cs.find? (takes e n)).map fun c => c.addr + e).getD 0 := by
  cases hfind : cs.find? (takes e n) with
  | none =>
    have hnone : places e lo hi B n = ∅ := by
      refine Finset.eq_empty_of_forall_notMem fun p hp => ?_
      obtain ⟨c, hc, htakes, -⟩ := (mem_places_iff he h hco hB).mp hp
      exact List.find?_eq_none.mp hfind c hc htakes
    rw [firstFit, hnone]
    rfl
  | some c =>
    obtain ⟨htakes, l₁, l₂, rfl, hbefore⟩ := List.find?_eq_some_iff_append.mp hfind
    have hmin : (places e lo hi B n).min = (c.addr + e : ℕ) := by
      refine le_antisymm (Finset.min_le ?_) (Finset.le_min fun p hp => ?_)
      · exact (mem_places_iff he h hco hB).mpr ⟨c, by simp, htakes, rfl⟩
      · obtain ⟨d, hd, hdtakes, rfl⟩ := (mem_places_iff he h hco hB).mp hp
        have hle : c.addr + e ≤ d.addr + e := by
          -- the chunks stand in the order of their addresses
          rcases List.mem_append.mp hd with hd | hd
          · have := hbefore d hd
            simp [hdtakes] at this
          · rcases List.mem_cons.mp hd with rfl | hd
            · exact le_rfl
            · have := h.behind hd
              omega
        exact WithTop.coe_le_coe.mpr hle
    rw [firstFit, hmin]
    rfl

end Cs214.Chunk

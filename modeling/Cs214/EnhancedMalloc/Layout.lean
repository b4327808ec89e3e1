import Cs214.EnhancedMalloc.Model
import Cs214.Library.Chunks

/-!
# Headers in the byte array

`Heap.entry h a` reads a whole header, and `Heap.setField` is a store that stays inside the
array. Two facts make the bytes tractable: a store changes one field of its own header
(`entry_setField_self`) and no header that is at least `entrySize` bytes away
(`entry_setField_of_apart`).

`Layout A h cs` connects a heap to the abstract arena: the chunks `cs` tile the array, and
their headers are the doubly linked list that starts at `head`. The headers determine the
chunks (`Layout.unique`), so `cs` is a function of the bytes. A move of the allocator exchanges
some neighbouring chunks for others that fill the same room (`Layout.exchange`).
-/

namespace Cs214.EnhancedMalloc

variable {A : Arena} {h h' : Heap} {a b lo hi p p' q v : ℕ} {f g : Field} {c d : Chunk}
  {cs cs' ds l l₁ l₂ : List Chunk}

/-! ### Headers as values -/

/-- The contents of a header. -/
@[ext] structure MemEntry where
  prev : ℕ
  next : ℕ
  isFree : ℕ
  fileFree : ℕ
  lineFree : ℕ
  size : ℕ

/-- Read a field of a header. -/
def MemEntry.get (x : MemEntry) : Field → ℕ
  | .prev => x.prev
  | .next => x.next
  | .isFree => x.isFree
  | .fileFree => x.fileFree
  | .lineFree => x.lineFree
  | .size => x.size

/-- Write a field of a header, dropping what does not fit. -/
def MemEntry.set (x : MemEntry) (f : Field) (v : ℕ) : MemEntry :=
  let v := v % 256 ^ f.width
  match f with
  | .prev => { x with prev := v }
  | .next => { x with next := v }
  | .isFree => { x with isFree := v }
  | .fileFree => { x with fileFree := v }
  | .lineFree => { x with lineFree := v }
  | .size => { x with size := v }

/-- The header at `a`. -/
def Heap.entry (h : Heap) (a : ℕ) : MemEntry where
  prev := h.mem.readLE (a + Field.prev.offset) Field.prev.width
  next := h.mem.readLE (a + Field.next.offset) Field.next.width
  isFree := h.mem.readLE (a + Field.isFree.offset) Field.isFree.width
  fileFree := h.mem.readLE (a + Field.fileFree.offset) Field.fileFree.width
  lineFree := h.mem.readLE (a + Field.lineFree.offset) Field.lineFree.width
  size := h.mem.readLE (a + Field.size.offset) Field.size.width

/-- The record of a release in the header at `a`: the file and the line. -/
def Heap.record (h : Heap) (a : ℕ) : ℕ × ℕ := ((h.entry a).fileFree, (h.entry a).lineFree)

/-- A field of an entry is read from its bytes. -/
theorem entry_get (h : Heap) (a : ℕ) (f : Field) :
    (h.entry a).get f = h.mem.readLE (a + f.offset) f.width := by
  cases f <;> rfl

/-- An entry is what its fields are. -/
theorem MemEntry.ext_get {x y : MemEntry} (hxy : ∀ f, x.get f = y.get f) : x = y :=
  MemEntry.ext (hxy .prev) (hxy .next) (hxy .isFree) (hxy .fileFree) (hxy .lineFree) (hxy .size)

/-- A field reads back what was stored into it, as far as it fits. -/
theorem MemEntry.get_set (x : MemEntry) (f g : Field) (v : ℕ) :
    (x.set f v).get g = if g = f then v % 256 ^ f.width else x.get g := by
  cases f <;> cases g <;> rfl

/-! A value that fits its field is stored as it is. -/

/-- The fields of pointers and of numbers, for values that fit. -/
theorem MemEntry.set_prev (x : MemEntry) (hv : v < 2 ^ 64) :
    x.set .prev v = { x with prev := v } := by
  simp only [MemEntry.set, Field.width]
  rw [Nat.mod_eq_of_lt (by omega)]

theorem MemEntry.set_next (x : MemEntry) (hv : v < 2 ^ 64) :
    x.set .next v = { x with next := v } := by
  simp only [MemEntry.set, Field.width]
  rw [Nat.mod_eq_of_lt (by omega)]

theorem MemEntry.set_isFree (x : MemEntry) (hv : v < 2 ^ 32) :
    x.set .isFree v = { x with isFree := v } := by
  simp only [MemEntry.set, Field.width]
  rw [Nat.mod_eq_of_lt (by omega)]

theorem MemEntry.set_size (x : MemEntry) (hv : v < 2 ^ 32) :
    x.set .size v = { x with size := v } := by
  simp only [MemEntry.set, Field.width]
  rw [Nat.mod_eq_of_lt (by omega)]

/-- A field lies within its header. -/
theorem Field.le_entrySize (f : Field) : f.offset + f.width ≤ entrySize := by
  cases f <;> decide

/-- Different fields lie apart. -/
private theorem Field.apart (hfg : f ≠ g) :
    f.offset + f.width ≤ g.offset ∨ g.offset + g.width ≤ f.offset := by
  cases f <;> cases g <;> first | exact absurd rfl hfg | decide

/-- A store within the array. -/
def Heap.setField (h : Heap) (a : ℕ) (f : Field) (v : ℕ) : Heap :=
  { h with mem := h.mem.writeLE (a + f.offset) f.width v }

@[simp] theorem setField_head (h : Heap) (a : ℕ) (f : Field) (v : ℕ) :
    (h.setField a f v).head = h.head := rfl

@[simp] theorem setField_initialized (h : Heap) (a : ℕ) (f : Field) (v : ℕ) :
    (h.setField a f v).initialized = h.initialized := rfl

/-- A store changes its field. -/
@[simp] theorem entry_setField_self (h : Heap) (a : ℕ) (f : Field) (v : ℕ) :
    (h.setField a f v).entry a = (h.entry a).set f v := by
  refine MemEntry.ext_get fun g => ?_
  rw [entry_get, MemEntry.get_set]
  split
  · rename_i hgf
    subst hgf
    exact Memory.readLE_writeLE _ _ _ _
  · rename_i hgf
    have hapart := Field.apart (Ne.symm hgf)
    rw [entry_get]
    exact Memory.readLE_writeLE_of_disjoint (by omega)

/-- A store changes no other header. -/
theorem entry_setField_of_apart (hab : a + entrySize ≤ b ∨ b + entrySize ≤ a) (f : Field) (v : ℕ) :
    (h.setField b f v).entry a = h.entry a := by
  refine MemEntry.ext_get fun g => ?_
  have hf := f.le_entrySize
  have hg := g.le_entrySize
  rw [entry_get, entry_get]
  exact Memory.readLE_writeLE_of_disjoint (by omega)

/-! ### Loads and stores in the array -/

/-- A header that lies in the array. -/
def Arena.HoldsEntry (A : Arena) (a : ℕ) : Prop := A.Holds a entrySize

/-- The fields of an entry lie in the arena with it. -/
private theorem Arena.HoldsEntry.field (ha : A.HoldsEntry a) (f : Field) :
    A.Holds (a + f.offset) f.width := by
  have hf := f.le_entrySize
  obtain ⟨h₁, h₂⟩ := ha
  exact ⟨by omega, by omega⟩

/-- A field of an entry in the arena can be loaded. -/
theorem load_eq (ha : A.HoldsEntry a) (f : Field) : h.load A a f = some ((h.entry a).get f) := by
  rw [Heap.load, if_pos (ha.field f), entry_get]

/-- And stored into. -/
theorem store_eq (ha : A.HoldsEntry a) (f : Field) (v : ℕ) :
    h.store A a f v = some (h.setField a f v) := by
  rw [Heap.store, if_pos (ha.field f), Heap.setField]

theorem Arena.HoldsEntry.ne_zero (ha : A.HoldsEntry a) : a ≠ 0 := by
  have := A.pos
  have := ha.1
  omega

theorem Arena.HoldsEntry.lt (ha : A.HoldsEntry a) : a + entrySize < 2 ^ 64 := by
  have := A.fits
  have := ha.2
  omega

theorem sizeT_eq {x : ℕ} (hx : x < 2 ^ 64) : sizeT x = x := by
  unfold sizeT
  omega

/-! ### Chunks in the array -/

/-- The address of the first chunk, or `q`. -/
def firstAddr (cs : List Chunk) (q : ℕ) : ℕ :=
  match cs with
  | [] => q
  | c :: _ => c.addr

/-- The address of the last chunk, or `p`. -/
def lastAddr (cs : List Chunk) (p : ℕ) : ℕ :=
  match cs.getLast? with
  | none => p
  | some c => c.addr

/-- A header describes the chunk `c` between the entries `p` and `q`. -/
structure Describes (x : MemEntry) (p q : ℕ) (c : Chunk) : Prop where
  prev : x.prev = p
  next : x.next = q
  isFree : x.isFree = c.free.toNat
  size : x.size = c.size

/-- The headers of the chunks form a doubly linked list, with `p` before it and `q` behind. -/
def Encodes (ent : ℕ → MemEntry) (p q : ℕ) : List Chunk → Prop
  | [] => True
  | c :: cs => Describes (ent c.addr) p (firstAddr cs q) c ∧ Encodes ent c.addr q cs

namespace Encodes

variable {ent ent' : ℕ → MemEntry}

/-- A chain of two parts, which meet at their ends. -/
theorem append_iff : Encodes ent p q (l₁ ++ l₂) ↔
    Encodes ent p (firstAddr l₂ q) l₁ ∧ Encodes ent (lastAddr l₁ p) q l₂ := by
  induction l₁ generalizing p with
  | nil => simp [Encodes, lastAddr]
  | cons c l₁ ih =>
    have hfirst : firstAddr (l₁ ++ l₂) q = firstAddr l₁ (firstAddr l₂ q) := by cases l₁ <;> rfl
    have hlast : lastAddr (c :: l₁) p = lastAddr l₁ c.addr := by
      rcases List.eq_nil_or_concat l₁ with rfl | ⟨l₀, b, rfl⟩
      · rfl
      · rw [List.concat_eq_append, lastAddr, lastAddr, ← List.cons_append, List.getLast?_concat,
          List.getLast?_concat]
    rw [List.cons_append, Encodes, Encodes, ih, hfirst, hlast, and_assoc]

/-- Only the headers of the chunks matter. -/
theorem congr (he : Encodes ent p q cs) (hent : ∀ c ∈ cs, ent' c.addr = ent c.addr) :
    Encodes ent' p q cs := by
  induction cs generalizing p with
  | nil => trivial
  | cons c cs ih =>
    obtain ⟨hc, ht⟩ := he
    refine ⟨?_, ih ht fun d hd => hent d (by simp [hd])⟩
    rw [hent c (by simp)]
    exact hc

/-- Another entry is put before the list. -/
private theorem setPrev (he : Encodes ent p q cs)
    (hhead : ∀ c ∈ cs.head?, ent' c.addr = { ent c.addr with prev := p' })
    (htail : ∀ c ∈ cs.tail, ent' c.addr = ent c.addr) : Encodes ent' p' q cs := by
  cases cs with
  | nil => trivial
  | cons c cs =>
    obtain ⟨hc, ht⟩ := he
    refine ⟨?_, ht.congr htail⟩
    rw [hhead c rfl]
    exact ⟨rfl, hc.next, hc.isFree, hc.size⟩

end Encodes

/-- **The layout of an initialized heap.** -/
structure Layout (A : Arena) (h : Heap) (cs : List Chunk) : Prop where
  initialized : h.initialized = true
  head : h.head = A.addr
  tiles : Chunk.Tiles entrySize A.addr (A.addr + heapSize) cs
  encodes : Encodes h.entry 0 0 cs

namespace Layout

/-- What the header of a chunk says. -/
theorem describes (hL : Layout A h (l₁ ++ c :: l₂)) :
    Describes (h.entry c.addr) (lastAddr l₁ 0) (firstAddr l₂ 0) c :=
  (Encodes.append_iff.mp hL.encodes).2.1

/-- Headers lie in the array. -/
theorem holdsEntry (hL : Layout A h cs) (hc : c ∈ cs) : A.HoldsEntry c.addr := by
  have := hL.tiles.bounds hc
  exact ⟨this.1, by omega⟩

/-- Sizes are small. -/
theorem size_le (hL : Layout A h cs) (hc : c ∈ cs) : c.size + entrySize ≤ heapSize := by
  have := hL.tiles.bounds hc
  omega

/-- Headers do not overlap. -/
theorem apart (hL : Layout A h cs) (ha : a ∈ cs.map Chunk.addr) (hb : b ∈ cs.map Chunk.addr) :
    a = b ∨ a + entrySize ≤ b ∨ b + entrySize ≤ a := by
  obtain ⟨c, hc, rfl⟩ := List.mem_map.mp ha
  obtain ⟨d, hd, rfl⟩ := List.mem_map.mp hb
  rcases hL.tiles.apart hc hd with rfl | hle | hle
  · exact .inl rfl
  · exact .inr (.inl (by omega))
  · exact .inr (.inr (by omega))

/-- The header behind a chunk does not overlap any other one. -/
theorem apart_next (hL : Layout A h (l₁ ++ c :: l₂)) (ha : a ∈ (l₁ ++ c :: l₂).map Chunk.addr)
    (hq : firstAddr l₂ 0 ≠ 0) : a = firstAddr l₂ 0 ∨ a + entrySize ≤ firstAddr l₂ 0 ∨
      firstAddr l₂ 0 + entrySize ≤ a := by
  cases l₂ with
  | nil => exact absurd rfl hq
  | cons g l₂ => exact hL.apart ha (by simp [firstAddr])

/-- The list starts at the head. -/
theorem firstAddr_eq (hL : Layout A h cs) : firstAddr cs 0 = h.head := by
  cases cs with
  | nil =>
    have hend : A.addr = A.addr + heapSize := hL.tiles
    have : heapSize = 5000 := rfl
    omega
  | cons c cs => exact hL.tiles.1.trans hL.head.symm

/-- The entry behind a chunk, if there is one. -/
theorem room_of_next (hL : Layout A h (l₁ ++ c :: l₂)) (hq : q = firstAddr l₂ 0) :
    (q ≠ 0 → A.HoldsEntry q) ∧ (q ≠ 0 → c.addr + entrySize + c.size ≤ q) ∧ q < 2 ^ 64 := by
  cases l₂ with
  | nil => simp [hq, firstAddr]
  | cons d l₂ =>
    have hd : A.HoldsEntry d.addr := hL.holdsEntry (by simp)
    have hlt := hd.lt
    obtain rfl : q = d.addr := hq
    exact ⟨fun _ => hd, fun _ => hL.tiles.behind (by simp), by omega⟩

/-- There are fewer chunks than the loops have fuel. -/
theorem length_lt (hL : Layout A h cs) : cs.length < heapSize := by
  have hlen := hL.tiles.length_mul_le
  simp only [entrySize, heapSize] at hlen ⊢
  omega

/-- **The headers determine the chunks.** -/
theorem unique (hL : Layout A h cs) (hL' : Layout A h cs') : cs = cs' := by
  have hgen : ∀ (cs cs' : List Chunk) (lo p : ℕ),
      Chunk.Tiles entrySize lo (A.addr + heapSize) cs →
      Chunk.Tiles entrySize lo (A.addr + heapSize) cs' →
      Encodes h.entry p 0 cs → Encodes h.entry p 0 cs' → cs = cs' := by
    have hpos : entrySize = 40 := rfl
    intro cs
    induction cs with
    | nil =>
      rintro (_ | ⟨c', cs'⟩) lo p ht ht' - -
      · rfl
      · have := ht'.bounds (List.mem_cons_self)
        have hlo : lo = A.addr + heapSize := ht
        omega
    | cons c cs ih =>
      rintro (_ | ⟨c', cs'⟩) lo p ht ht' he he'
      · have := ht.bounds (List.mem_cons_self)
        have hlo : lo = A.addr + heapSize := ht'
        omega
      · obtain ⟨haddr, ht⟩ := ht
        obtain ⟨haddr', ht'⟩ := ht'
        obtain ⟨hd, he⟩ := he
        obtain ⟨hd', he'⟩ := he'
        rw [haddr] at hd he
        rw [haddr'] at hd' he'
        have hsize : c.size = c'.size := hd.size.symm.trans hd'.size
        have hfree : c.free = c'.free := by
          have := hd.isFree.symm.trans hd'.isFree
          cases hc : c.free <;> cases hc' : c'.free <;> simp_all
        have hcc : c = c' := by
          cases c
          cases c'
          simp_all
        rw [hcc, ih cs' _ lo ht (hsize ▸ ht') he he']
  exact hgen cs cs' A.addr 0 hL.tiles hL'.tiles hL.encodes hL'.encodes

end Layout

/-! ### Moves -/

/-- **A move of the allocator** writes to the headers in `[lo, hi)`, and links the entry at `q`
behind them back to `b`. -/
structure Relinks (h h' : Heap) (lo hi b q : ℕ) : Prop where
  initialized : h'.initialized = h.initialized
  head : h'.head = h.head
  back : q ≠ 0 → h'.entry q = { h.entry q with prev := b }
  other : ∀ a, (a + entrySize ≤ lo ∨ hi ≤ a) →
    (q ≠ 0 → a + entrySize ≤ q ∨ q + entrySize ≤ a) → h'.entry a = h.entry a

/-- A move keeps the records of the headers it does not reach, and of the one it links back. -/
theorem Relinks.record (hm : Relinks h h' lo hi b q) (ha : a + entrySize ≤ lo ∨ hi ≤ a)
    (hq : q ≠ 0 → a = q ∨ a + entrySize ≤ q ∨ q + entrySize ≤ a) :
    h'.record a = h.record a := by
  by_cases haq : q ≠ 0 ∧ a = q
  · obtain ⟨hq0, rfl⟩ := haq
    rw [Heap.record, hm.back hq0, Heap.record]
  · rw [Heap.record, hm.other a ha fun hq0 => (hq hq0).resolve_left fun heq => haq ⟨hq0, heq⟩,
      Heap.record]

/-- **A move in the layout**: the chunks between `l₁` and `l₂` are exchanged for `ds`. -/
theorem Layout.exchange (hL : Layout A h (l₁ ++ cs ++ l₂)) (hlohi : lo ≤ hi)
    (hbefore : ∀ d ∈ l₁, d.addr + entrySize ≤ lo) (hbehind : ∀ d ∈ l₂, hi ≤ d.addr)
    (hm : Relinks h h' lo hi (lastAddr (l₁ ++ ds) 0) (firstAddr l₂ 0))
    (hfirst : firstAddr ds (firstAddr l₂ 0) = firstAddr cs (firstAddr l₂ 0))
    (htiles : Chunk.Tiles entrySize A.addr (A.addr + heapSize) (l₁ ++ ds ++ l₂))
    (hds : Encodes h'.entry (lastAddr l₁ 0) (firstAddr l₂ 0) ds) :
    Layout A h' (l₁ ++ ds ++ l₂) := by
  obtain ⟨he, he₂⟩ := Encodes.append_iff.mp hL.encodes
  obtain ⟨he₁, -⟩ := Encodes.append_iff.mp he
  -- the chunks before keep their headers
  have h₁ : Encodes h'.entry 0 (firstAddr ds (firstAddr l₂ 0)) l₁ := by
    rw [hfirst]
    refine he₁.congr fun d hd => hm.other _ (.inl (hbefore d hd)) fun hq => .inl ?_
    cases l₂ with
    | nil => exact absurd rfl hq
    | cons g l₂ => exact (hbefore d hd).trans (hlohi.trans (hbehind g List.mem_cons_self))
  -- of the chunks behind only the first is linked back
  have h₂ : Encodes h'.entry (lastAddr (l₁ ++ ds) 0) 0 l₂ := by
    cases l₂ with
    | nil => trivial
    | cons g l₂ =>
      refine he₂.setPrev (fun d hd => ?_) fun d hd => ?_
      · obtain rfl := Option.some.inj hd
        exact hm.back (hL.holdsEntry (by simp)).ne_zero
      · have := htiles.behind hd
        refine hm.other _ (.inr (hbehind d (List.mem_cons_of_mem _ hd))) fun _ => .inr ?_
        simp only [firstAddr]
        omega
  exact ⟨hm.initialized.trans hL.initialized, hm.head.trans hL.head, htiles,
    Encodes.append_iff.mpr ⟨Encodes.append_iff.mpr ⟨h₁, hds⟩, h₂⟩⟩

end Cs214.EnhancedMalloc

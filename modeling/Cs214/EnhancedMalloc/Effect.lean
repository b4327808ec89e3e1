import Cs214.EnhancedMalloc.Free

/-!
# What a step of the client does

`Valid A s` is the invariant of the allocator and its client: before the first allocation
nothing is held, and from then on the array is laid out in chunks of which no two neighbours
are free, and the blocks held are the used chunks. `Effect A s op out s'` collects the
specifications of the calls; in a valid state every legal step is answered and has its effect
(`exists_effect`), and the effect keeps the invariant (`Effect.valid`).
-/

namespace Cs214.EnhancedMalloc

open Chunk

variable {A : Arena} {s s' : Config} {h h' h₁ : Heap} {op : Op} {out : Answer} {c : Chunk}
  {cs l₁ l₂ : List Chunk} {tr : List (Event Config Op Answer)}

/-- **The invariant.** -/
inductive Valid (A : Arena) (s : Config) : Prop
  | fresh (hi : s.heap.initialized = false) (hlive : s.live = [])
  | laidOut (cs : List Chunk) (hL : Layout A s.heap cs) (hco : Coalesced cs)
      (hlive : s.live.Perm (blocks entrySize cs))

/-- **The effect of each step** of the client. -/
inductive Effect (A : Arena) (s : Config) : Op → Answer → Config → Prop
  | malloc {size file : ℕ} {callerLine : ℤ} {h₁ h' : Heap} {l₁ l₂ : List Chunk} {c : Chunk}
      (hens : ensureInit A s.heap = some h₁) (hL : Layout A h₁ (l₁ ++ c :: l₂))
      (hfree : c.free = true) (hfit : size + entrySize ≤ c.size)
      (hL' : Layout A h' (l₁ ++ c.split entrySize size ++ l₂)) :
      Effect A s (.malloc size file callerLine) (.pointer (c.addr + entrySize) none)
        ⟨h', (c.addr + entrySize, size) :: s.live⟩
  | mallocNull {size file : ℕ} {callerLine : ℤ} {h₁ : Heap} {cs : List Chunk} {r : Report}
      (hens : ensureInit A s.heap = some h₁) (hL : Layout A h₁ cs)
      (hnone : ∀ c ∈ cs, c.free = true → c.size < size + entrySize) :
      Effect A s (.malloc size file callerLine) (.pointer 0 (some r)) ⟨h₁, s.live⟩
  | free {file : ℕ} {callerLine : ℤ} {h' : Heap} {l₁ l₂ : List Chunk} {c : Chunk}
      (hL : Layout A s.heap (l₁ ++ c :: l₂)) (hused : c.free = false)
      (hL' : Layout A h' (release entrySize l₁ c l₂)) :
      Effect A s (.free (c.addr + entrySize) file callerLine) (.freed none)
        ⟨h', s.live.filter fun b => b.1 ≠ c.addr + entrySize⟩
  | freeError {data file : ℕ} {callerLine : ℤ} {r : Report} (hdata : ∀ n, (data, n) ∉ s.live) :
      Effect A s (.free data file callerLine) (.freed (some r)) s
  | write {addr : ℕ} {byte : UInt8} (hlive : ∃ b ∈ s.live, b.1 ≤ addr ∧ addr < b.1 + b.2) :
      Effect A s (.write addr byte) .written
        ⟨{ s.heap with mem := s.heap.mem.writeLE addr 1 byte.toNat }, s.live⟩

/-- After the first lines of `customMalloc` the heap is laid out. -/
theorem Valid.ensureInit (hv : Valid A s) : ∃ h₁ cs, ensureInit A s.heap = some h₁ ∧
    Layout A h₁ cs ∧ Coalesced cs ∧ s.live.Perm (blocks entrySize cs) := by
  cases hv with
  | fresh hi hlive =>
    obtain ⟨h₁, hens, hL⟩ := ensureInit_of_not (A := A) hi
    exact ⟨h₁, _, hens, hL, List.isChain_singleton _, by rw [hlive]; rfl⟩
  | laidOut cs hL hco hlive => exact ⟨_, cs, ensureInit_of_layout hL, hL, hco, hlive⟩

/-- **Every legal step is answered**, with its effect. -/
theorem exists_effect (hv : Valid A s) (hl : legal s op) :
    ∃ s' out, step A s op = some (s', out) ∧ Effect A s op out s' := by
  cases op with
  | malloc size file callerLine =>
    obtain ⟨h₁, cs, hens, hL, -, -⟩ := hv.ensureInit
    rcases customMalloc_spec hens hL hl.1 file callerLine with
      ⟨l₁, c, l₂, h', rfl, hfree, hfit, hrun, hL', -⟩ | ⟨hrun, hnone⟩
    · have hne : c.addr + entrySize ≠ 0 := by
        have := (hL.holdsEntry (c := c) (by simp)).ne_zero
        omega
      refine ⟨⟨h', (c.addr + entrySize, size) :: s.live⟩, _, ?_,
        .malloc hens hL hfree hfit hL'⟩
      simp only [step, hrun, Option.bind_eq_bind, Option.bind_some, if_neg hne]
    · refine ⟨⟨h₁, s.live⟩, .pointer 0 (some (errorReport file callerLine .mallocInsufficient 0)),
        ?_, .mallocNull hens hL hnone⟩
      simp only [step, hrun, Option.bind_eq_bind, Option.bind_some, if_true]
  | free data file callerLine =>
    cases hv with
    | fresh hi hlive =>
      refine ⟨s, _, by simp [step, customFree, hi]; rfl, .freeError (by simp [hlive])⟩
    | laidOut cs hL hco hlive =>
      rcases customFree_spec hL data file callerLine with
        ⟨l₁, c, l₂, h', rfl, hused, rfl, hrun, hL', -⟩ | ⟨r, hrun, hrej⟩
      · exact ⟨_, _, by simp [step, hrun], .free hL hused hL'⟩
      · refine ⟨s, _, by simp [step, hrun], .freeError (r := r) fun n hn => ?_⟩
        obtain ⟨c, hc, hused, heq⟩ := mem_blocks.mp (hlive.mem_iff.mp hn)
        exact hrej.used c hc hused (Prod.mk.inj heq).1
  | write addr byte => exact ⟨_, _, rfl, .write hl⟩

/-- A write into a block in use changes no header. -/
theorem Layout.entry_write (hL : Layout A h cs) {p n addr : ℕ}
    (hp : (p, n) ∈ blocks entrySize cs) (h₁ : p ≤ addr) (h₂ : addr < p + n) (v : ℕ)
    (hc : c ∈ cs) :
    ({ h with mem := h.mem.writeLE addr 1 v } : Heap).entry c.addr = h.entry c.addr := by
  have hapart := block_header hL.tiles hp hc
  refine MemEntry.ext_get fun f => ?_
  have hf := f.le_entrySize
  rw [entry_get, entry_get]
  exact Memory.readLE_writeLE_of_disjoint (by omega)

theorem Layout.write (hL : Layout A h cs) {p n addr : ℕ} (hp : (p, n) ∈ blocks entrySize cs)
    (h₁ : p ≤ addr) (h₂ : addr < p + n) (v : ℕ) :
    Layout A { h with mem := h.mem.writeLE addr 1 v } cs :=
  ⟨hL.initialized, hL.head, hL.tiles,
    hL.encodes.congr fun _ hc => hL.entry_write hp h₁ h₂ v hc⟩

/-- The blocks other than the one at `p`. -/
private theorem filter_blocks {lo hi p n : ℕ} {B₁ B₂ : List (ℕ × ℕ)} (ht : Tiles entrySize lo hi cs)
    (hB : blocks entrySize cs = B₁ ++ (p, n) :: B₂) :
    (blocks entrySize cs).filter (fun b => b.1 ≠ p) = B₁ ++ B₂ := by
  have hentry : entrySize = 40 := rfl
  have hpw := blocks_pairwise ht
  rw [hB] at hpw ⊢
  obtain ⟨-, h₂, h₁⟩ := List.pairwise_append.mp hpw
  have hne₁ : ∀ b ∈ B₁, b.1 ≠ p := by
    intro b hb
    have := h₁ b hb (p, n) (by simp)
    dsimp only at this
    omega
  have hne₂ : ∀ b ∈ B₂, b.1 ≠ p := by
    intro b hb
    have := (List.pairwise_cons.mp h₂).1 b hb
    dsimp only at this
    omega
  rw [List.filter_append, List.filter_cons_of_neg (by simp), List.filter_eq_self.mpr,
    List.filter_eq_self.mpr]
  · simpa using hne₂
  · simpa using hne₁

/-- **Every step keeps the invariant.** -/
theorem Effect.valid (he : Effect A s op out s') (hv : Valid A s) : Valid A s' := by
  cases he with
  | malloc hens hL hfree hfit hL' =>
    obtain ⟨h₁, cs, hens', hL₁, hco, hlive⟩ := hv.ensureInit
    obtain rfl := Option.some.inj (hens.symm.trans hens')
    obtain rfl := hL.unique hL₁
    refine .laidOut _ hL' (hco.split hfree entrySize _) ?_
    obtain ⟨hafter, hbefore⟩ := blocks_split (e := entrySize) hfree
    rw [hbefore] at hlive
    rw [hafter]
    exact (hlive.cons _).trans List.perm_middle.symm
  | mallocNull hens hL =>
    obtain ⟨h₁, cs, hens', hL₁, hco, hlive⟩ := hv.ensureInit
    obtain rfl := Option.some.inj (hens.symm.trans hens')
    exact .laidOut cs hL₁ hco hlive
  | free hL hused hL' =>
    cases hv with
    | fresh hi =>
      have := hL.initialized
      simp [hi] at this
    | laidOut cs hL₁ hco hlive =>
      obtain rfl := hL.unique hL₁
      refine .laidOut _ hL' (hco.release entrySize) ?_
      obtain ⟨hafter, hbefore⟩ := blocks_release entrySize _ _ hused
      rw [hafter, ← filter_blocks hL.tiles hbefore]
      exact hlive.filter _
  | freeError => exact hv
  | write hlive =>
    obtain ⟨b, hb, h₁, h₂⟩ := hlive
    cases hv with
    | fresh hi hnil => simp [hnil] at hb
    | laidOut cs hL hco hlive =>
      exact .laidOut cs (hL.write (hlive.mem_iff.mp hb) h₁ h₂ _) hco hlive

/-- The effect of an event. -/
theorem Effect.of_occurs {e : Event Config Op Answer} (he : e.Occurs (machine A))
    (hv : Valid A e.pre) : Effect A e.pre e.op e.out e.post := by
  obtain ⟨s', out, hrun, heff⟩ := exists_effect hv he.legal
  have := hrun.symm.trans he.step
  rw [Option.some.injEq, Prod.mk.injEq] at this
  obtain ⟨rfl, rfl⟩ := this
  exact heff

/-- **Every reachable state is valid.** -/
theorem valid_of_run (hr : Run (machine A) (start A) tr s) : Valid A s :=
  hr.invariant (.fresh rfl rfl) fun _ hv he => (Effect.of_occurs he hv).valid hv

/-- The events of a run have their effects. -/
theorem effect_of_mem (hr : Run (machine A) (start A) tr s) {e : Event Config Op Answer}
    (he : e ∈ tr) : Valid A e.pre ∧ Effect A e.pre e.op e.out e.post := by
  obtain ⟨⟨tr₁, h₁⟩, hocc⟩ := hr.occurs_of_mem he
  exact ⟨valid_of_run h₁, .of_occurs hocc (valid_of_run h₁)⟩

/-- **Progress.** In every reachable state every legal step is answered: no access leaves the
array, and every loop ends. -/
theorem step_isSome_of_run (hr : Run (machine A) (start A) tr s) (hl : legal s op) :
    (step A s op).isSome := by
  obtain ⟨s', out, hrun, -⟩ := exists_effect (valid_of_run hr) hl
  simp [hrun]

/-! ### A session -/

/-- An array at address 4096. -/
def lowArena : Arena := ⟨4096, by decide, by decide⟩

/-- A session: two blocks, one of them empty, a write, a release and a redundant one. -/
def session : List Op :=
  [.malloc 100 8 21, .malloc 0 8 22, .write 4140 255, .free 4136 8 24, .free 4136 8 25]

private theorem exec_session : ((machine lowArena).exec (start lowArena) session).isSome := by
  decide +kernel

/-- The trace of the session and the state it leads to. -/
def sessionRun : List (Event Config Op Answer) × Config :=
  ((machine lowArena).exec (start lowArena) session).get exec_session

theorem run_session : Run (machine lowArena) (start lowArena) sessionRun.1 sessionRun.2 :=
  Machine.run_get exec_session

end Cs214.EnhancedMalloc

import Cs214.EnhancedMalloc.Restore

/-!
# What `customFree` says about a redundant call

A call with the address of a block that was released before is told to be redundant as long as an
entry stands in front of the address, and that is so as long as a block in use ends there
(`redundant_iff`): otherwise the entry was merged with the one before it, and the address lies
inside of a free entry or of a header.

The report names the file and the line that are stored in the entry. They are those of the latest
release of the address unless `customMalloc` has made the entry anew since then
(`redundant_report`): an entry that is made by a split has there what its bytes held before.
-/

namespace Cs214.EnhancedMalloc

open Chunk

variable {A : Arena} {s s' : Config} {h : Heap} {a p n data file : ℕ} {callerLine : ℤ}
  {c : Chunk} {cs : List Chunk} {r : Report} {e : Event Config Op Answer}
  {tr tr₁ tr₂ : List (Event Config Op Answer)}

/-! ### Calls and entries -/

/-- A successful call of `customFree` with the address `data`. -/
def Frees (e : Event Config Op Answer) (data file : ℕ) (callerLine : ℤ) : Prop :=
  e.op = .free data file callerLine ∧ e.out = .freed none

/-- A call of `customMalloc` that returned the address `p`. -/
def Returns (e : Event Config Op Answer) (p : ℕ) : Prop := ∃ r, e.out = .pointer p r

/-- An entry of the list stands at `a`. -/
def Heap.Stands (h : Heap) (a : ℕ) : Prop := ∃ as, Visits h h.head as ∧ a ∈ as

private theorem Layout.stands_iff (hL : Layout A h cs) : h.Stands a ↔ a ∈ cs.map Chunk.addr := by
  constructor
  · rintro ⟨as, has, ha⟩
    rwa [has.unique hL.visits] at ha
  · exact fun ha => ⟨_, hL.visits, ha⟩

/-- **A call of `customFree` that frees nothing** in a state laid out in chunks. -/
theorem step_rejects (hv : Valid A s) (hL : Layout A s.heap cs) (hdata : ∀ n, (data, n) ∉ s.live)
    (file : ℕ) (callerLine : ℤ) :
    ∃ r, step A s (.free data file callerLine) = some (s, .freed (some r)) ∧
      Rejects s.heap cs data file callerLine r := by
  rcases customFree_spec hL data file callerLine with
    ⟨l₁, c, l₂, h', rfl, hused, rfl, -⟩ | ⟨r, hrun, hrej⟩
  · refine absurd ((hv.live_perm hL).mem_iff.mpr (mem_blocks.mpr ⟨c, by simp, hused, rfl⟩)) ?_
    exact hdata c.size
  · exact ⟨r, by simp [step, hrun], hrej⟩

/-- A release has the effect of one. -/
private theorem Frees.effect (he : Frees e data file callerLine) (hocc : e.Occurs (machine A))
    (hv : Valid A e.pre) : Effect A e.pre (.free data file callerLine) (.freed none) e.post := by
  have heff := Effect.of_occurs hocc hv
  rwa [he.1, he.2] at heff

/-! ### Released blocks -/

/-- The address is not held. -/
structure Released (p : ℕ) (s : Config) : Prop where
  initialized : s.heap.initialized = true
  live : ∀ n, (p, n) ∉ s.live

/-- A release. -/
private theorem Effect.released (he : Effect A s (.free p file callerLine) (.freed none) s') :
    Released p s' := by
  cases he with
  | free hL hused hL' => exact ⟨hL'.initialized, fun n hn => by simp at hn⟩

/-- A step that does not return the address. -/
private theorem Released.step {op : Op} {out : Answer} (h : Released p s)
    (he : Effect A s op out s')
    (hout : ∀ r, out ≠ .pointer p r) : Released p s' := by
  cases he with
  | malloc hens hL hfree hfit hL' =>
    refine ⟨hL'.initialized, fun n hn => ?_⟩
    rcases List.mem_cons.mp hn with heq | hn
    · exact hout none (by rw [(Prod.mk.inj heq).1])
    · exact h.live n hn
  | mallocNull hens hL => exact ⟨hL.initialized, h.live⟩
  | free hL hused hL' =>
    exact ⟨hL'.initialized, fun n hn => h.live n (List.mem_of_mem_filter hn)⟩
  | freeError => exact h
  | write => exact ⟨h.initialized, h.live⟩

/-- **After a release** the address is not held until it is returned again. -/
theorem released_of_frees (hr : Run (machine A) (start A) (tr₁ ++ e :: tr₂) s)
    (he : Frees e p file callerLine) (hsince : ∀ f ∈ tr₂, ¬Returns f p) : Released p s := by
  obtain ⟨h₁, hocc, -⟩ := hr.split
  refine hr.since ?_ fun f hf ⟨_, hreach⟩ h hocc => ?_
  · exact (he.effect hocc (valid_of_run h₁)).released
  · exact h.step (.of_occurs hocc (valid_of_run hreach)) fun r hout => hsince f hf ⟨r, hout⟩

/-- A block that was released stood in the array. -/
private theorem bounds_of_frees (hr : Run (machine A) (start A) (tr₁ ++ e :: tr₂) s)
    (he : Frees e p file callerLine) :
    A.addr + entrySize ≤ p ∧ p ≤ A.addr + heapSize := by
  obtain ⟨h₁, hocc, -⟩ := hr.split
  have heff := he.effect hocc (valid_of_run h₁)
  generalize e.post = s' at heff
  cases heff with
  | free hL =>
    have := hL.tiles.bounds (c := _) List.mem_append_cons_self
    omega

/-- **A redundant call** is told to be one if and only if the address is the first one, or a block
that is held ends in front of its header. -/
theorem redundant_iff (hr : Run (machine A) (start A) (tr₁ ++ e :: tr₂) s) {file' : ℕ}
    {callerLine' : ℤ} (he : Frees e p file' callerLine') (hsince : ∀ f ∈ tr₂, ¬Returns f p)
    (file : ℕ) (callerLine : ℤ) :
    ∃ r, step A s (.free p file callerLine) = some (s, .freed (some r)) ∧
      (r.error = .freeRedundant ↔
        p = A.addr + entrySize ∨ ∃ b ∈ s.live, b.1 + b.2 + entrySize = p) := by
  have hv := valid_of_run hr
  have hreleased := released_of_frees hr he hsince
  obtain ⟨hlo, hhi⟩ := bounds_of_frees hr he
  cases hv with
  | fresh h0 => exact absurd (h0.symm.trans hreleased.initialized) (by decide)
  | laidOut cs hL hco hlive =>
    obtain ⟨r, hstep, hrej⟩ := step_rejects (valid_of_run hr) hL hreleased.live file callerLine
    refine ⟨r, hstep, ?_⟩
    -- the report is about the entry in front of the address
    have hentry : r.error = .freeRedundant ↔ p - entrySize ∈ cs.map Chunk.addr := by
      constructor
      · intro hred
        obtain ⟨c, hc, heq⟩ := hrej.entry hred
        exact List.mem_map.mpr ⟨c, hc, by omega⟩
      · intro hmem
        obtain ⟨c, hc, heq⟩ := List.mem_map.mp hmem
        rw [hrej.redundant c hc (by omega)]
        rfl
    rw [hentry, hL.tiles.mem_map_addr_iff (by decide) hco ?_ (by omega)]
    · refine or_congr (by omega) (exists_congr fun b => ?_)
      rw [hlive.mem_iff]
      exact and_congr_right fun _ => by omega
    · rintro ⟨q, n⟩ hb heq
      exact hreleased.live n (hlive.mem_iff.mpr (by rwa [show p = q by omega]))

/-- The release of the first of three blocks. -/
def firstFreed : Event Config Op Answer :=
  (machine lowArena).event threeBlocksRun.2 (.free 4136 8 31) (by decide +kernel)

private theorem run_firstFreed :
    Run (machine lowArena) (start lowArena) (threeBlocksRun.1 ++ [firstFreed]) firstFreed.post :=
  run_threeBlocks.snoc (Machine.event_occurs (by decide) (by decide +kernel))

private theorem frees_firstFreed : Frees firstFreed 4136 8 31 := ⟨rfl, by decide +kernel⟩

/-- The first block is released twice. -/
theorem redundant_iff_firstFreed : ∃ r,
    step lowArena firstFreed.post (.free 4136 8 32) = some (firstFreed.post, .freed (some r)) ∧
      r.error = .freeRedundant := by
  obtain ⟨r, hstep, hred⟩ := redundant_iff run_firstFreed frees_firstFreed (by simp) 8 32
  exact ⟨r, hstep, hred.mpr (.inl rfl)⟩

/-! ### Blocks were returned -/

/-- **A block that is held was returned** by `customMalloc`. -/
theorem returned_of_live (hr : Run (machine A) (start A) tr s) {b : ℕ × ℕ} (hb : b ∈ s.live) :
    ∃ f ∈ tr, Returns f b.1 := by
  induction hr with
  | nil => cases hb
  | @snoc tr f h hf ih =>
    have hkeep (hb : b ∈ f.pre.live) : ∃ g ∈ tr ++ [f], Returns g b.1 := by
      obtain ⟨g, hg, hret⟩ := ih hb
      exact ⟨g, List.mem_append_left _ hg, hret⟩
    have heff := Effect.of_occurs hf (valid_of_run h)
    obtain ⟨pre, op, out, post⟩ := f
    dsimp only at heff hb hkeep
    cases heff with
    | malloc hens hL hfree hfit hL' =>
      rcases List.mem_cons.mp hb with rfl | hb
      · exact ⟨_, List.mem_append_right _ List.mem_cons_self, none, rfl⟩
      · exact hkeep hb
    | mallocNull => exact hkeep hb
    | free => exact hkeep (List.mem_of_mem_filter hb)
    | freeError => exact hkeep hb
    | write => exact hkeep hb

/-- A block that was released had been returned. -/
private theorem returned_of_frees (hr : Run (machine A) (start A) (tr₁ ++ e :: tr₂) s)
    (he : Frees e p file callerLine) : ∃ f ∈ tr₁, Returns f p := by
  obtain ⟨h₁, hocc, -⟩ := hr.split
  have hv := valid_of_run h₁
  have heff := he.effect hocc hv
  generalize e.post = s' at heff
  cases heff with
  | @free _ _ _ _ _ c hL hused =>
    have hlive : (c.addr + entrySize, c.size) ∈ e.pre.live :=
      (hv.live_perm hL).mem_iff.mpr (mem_blocks.mpr ⟨c, by simp, hused, rfl⟩)
    exact returned_of_live h₁ hlive

/-- A session that releases the first of two blocks. -/
def twoBlocks : List Op := [.malloc 100 8 21, .malloc 100 8 22, .free 4136 8 23]

private theorem exec_twoBlocks : ((machine lowArena).exec (start lowArena) twoBlocks).isSome := by
  decide +kernel

/-- The trace of the session and the state it leads to. -/
def twoBlocksRun : List (Event Config Op Answer) × Config :=
  ((machine lowArena).exec (start lowArena) twoBlocks).get exec_twoBlocks

private theorem run_twoBlocks :
    Run (machine lowArena) (start lowArena) twoBlocksRun.1 twoBlocksRun.2 :=
  Machine.run_get exec_twoBlocks

/-- The release of the second block, which the first one takes over. -/
def secondFreed : Event Config Op Answer :=
  (machine lowArena).event twoBlocksRun.2 (.free 4276 8 24) (by decide +kernel)

private theorem run_secondFreed :
    Run (machine lowArena) (start lowArena) (twoBlocksRun.1 ++ [secondFreed]) secondFreed.post :=
  run_twoBlocks.snoc (Machine.event_occurs (by decide) (by decide +kernel))

private theorem frees_secondFreed : Frees secondFreed 4276 8 24 := ⟨rfl, by decide +kernel⟩

/-- The second release of the second block is told to be in the middle of a block. -/
theorem not_redundant : ¬∀ (tr₁ tr₂ : List (Event Config Op Answer)) (e : Event Config Op Answer)
    (s s' : Config) (p file : ℕ) (callerLine : ℤ) (r : Report),
      Run (machine lowArena) (start lowArena) (tr₁ ++ e :: tr₂) s → (∃ f ∈ tr₁, Returns f p) →
      Frees e p file callerLine → (∀ f ∈ tr₂, ¬Returns f p) →
      (∀ b ∈ s.live, ¬(b.1 ≤ p ∧ p < b.1 + b.2)) →
      step lowArena s (.free p 8 25) = some (s', .freed (some r)) → r.error = .freeRedundant := by
  intro h
  have hout : (step lowArena secondFreed.post (.free 4276 8 25)).map Prod.snd =
      some (.freed (some (errorReport 8 25 .freeMiddle 4276))) := by
    decide +kernel
  obtain ⟨⟨s', out⟩, hstep, rfl⟩ := Option.map_eq_some_iff.mp hout
  have hlive : secondFreed.post.live = [] := by decide +kernel
  have hred := h twoBlocksRun.1 [] secondFreed _ s' 4276 8 24 _ run_secondFreed
    (returned_of_frees run_secondFreed frees_secondFreed) frees_secondFreed (by simp)
    (by simp [hlive]) hstep
  exact absurd hred (by decide)

/-! ### Records of releases -/

/-- The heap behind a call of `customMalloc`. -/
private theorem heap_of_malloc {out : Answer} {o : Option Report}
    (hstep : step A s (.malloc n file callerLine) = some (s', out))
    (hrun : customMalloc A s.heap n file callerLine = some (h, p, o)) : s'.heap = h := by
  simp only [step, hrun, Option.bind_eq_bind, Option.bind_some, Option.some.injEq,
    Prod.mk.injEq] at hstep
  rw [← hstep.1]

/-- The heap behind a call of `customFree`, and what it answers. -/
private theorem heap_of_free {out : Answer} {o : Option Report}
    (hstep : step A s (.free data file callerLine) = some (s', out))
    (hrun : customFree A s.heap data file callerLine = some (h, o)) :
    s'.heap = h ∧ out = .freed o := by
  simp only [step, hrun, Option.bind_eq_bind, Option.bind_some, Option.some.injEq,
    Prod.mk.injEq] at hstep
  exact ⟨by rw [← hstep.1], hstep.2.symm⟩

/-- Nothing can be released before the first call of `customMalloc`. -/
private theorem customFree_of_not (hi : h.initialized = false) (data file : ℕ) (callerLine : ℤ) :
    customFree A h data file callerLine =
      some (h, some (errorReport file callerLine .freeNotAllocated data)) := by
  rw [customFree, hi]
  rfl

/-- **A release writes its record**, if its entry is still there behind it. -/
theorem record_of_frees (hocc : e.Occurs (machine A)) (hv : Valid A e.pre)
    (he : Frees e (a + entrySize) file callerLine) (hpost : e.post.heap.Stands a) :
    e.post.heap.record a = (file % 2 ^ 64, unsigned callerLine) := by
  obtain ⟨pre, op, out, post⟩ := e
  obtain ⟨rfl, rfl⟩ : op = _ ∧ out = _ := he
  have hstep := hocc.step
  dsimp only at hv hpost hstep ⊢
  cases hv with
  | fresh hi => cases (heap_of_free hstep (customFree_of_not hi _ _ _)).2
  | laidOut cs hL =>
    rcases customFree_spec hL (a + entrySize) file callerLine with
      ⟨l₁, c, l₂, h', rfl, hused, haddr, hrun, hL', hrecord⟩ | ⟨r, hrun, -⟩
    · obtain ⟨rfl, -⟩ := heap_of_free hstep hrun
      rw [hrecord a (hL'.stands_iff.mp hpost), if_pos (by omega)]
    · cases (heap_of_free hstep hrun).2

/-- **Every other step keeps the record** of an entry that is there before and behind it. -/
theorem record_of_not_frees (hocc : e.Occurs (machine A)) (hv : Valid A e.pre)
    (hi : e.pre.heap.initialized = true)
    (hne : ∀ file callerLine, ¬Frees e (a + entrySize) file callerLine)
    (hpre : e.pre.heap.Stands a) (hpost : e.post.heap.Stands a) :
    e.post.heap.record a = e.pre.heap.record a := by
  obtain ⟨pre, op, out, post⟩ := e
  have hstep := hocc.step
  have hlegal := hocc.legal
  dsimp only at hv hi hpre hpost hstep hlegal ⊢
  cases hv with
  | fresh h0 => exact absurd (h0.symm.trans hi) (by decide)
  | laidOut cs hL hco hlive =>
    rw [hL.stands_iff] at hpre
    cases op with
    | malloc size file callerLine =>
      rcases customMalloc_spec (ensureInit_of_layout hL) hL hlegal.1 file callerLine with
        ⟨l₁, c, l₂, h', rfl, -, -, hrun, -, hrecord⟩ | ⟨hrun, -⟩
      · rw [heap_of_malloc hstep hrun]
        exact hrecord a hpre
      · rw [heap_of_malloc hstep hrun]
    | free data file callerLine =>
      rcases customFree_spec hL data file callerLine with
        ⟨l₁, c, l₂, h', rfl, hused, rfl, hrun, hL', hrecord⟩ | ⟨r, hrun, -⟩
      · obtain ⟨rfl, rfl⟩ := heap_of_free hstep hrun
        rw [hrecord a (hL'.stands_iff.mp hpost), if_neg]
        rintro rfl
        exact hne file callerLine ⟨rfl, rfl⟩
      · rw [(heap_of_free hstep hrun).1]
    | write addr byte =>
      obtain ⟨b, hb, hlo, hhi⟩ := hlegal
      obtain ⟨c, hc, rfl⟩ := List.mem_map.mp hpre
      simp only [machine, step, Option.some.injEq, Prod.mk.injEq] at hstep
      rw [← hstep.1, Heap.record, hL.entry_write (hlive.mem_iff.mp hb) hlo hhi _ hc, Heap.record]

/-- A line is an `int`. -/
private theorem toInt_unsigned (hlo : -2 ^ 31 ≤ callerLine) (hhi : callerLine < 2 ^ 31) :
    toInt (unsigned callerLine) = callerLine := by
  unfold toInt unsigned
  split_ifs <;> omega

/-- **The latest release** of `data` in a trace is the call `e`, which `tr₂` is behind. -/
structure LatestRelease (tr tr₁ : List (Event Config Op Answer)) (e : Event Config Op Answer)
    (tr₂ : List (Event Config Op Answer)) (data file : ℕ) (callerLine : ℤ) : Prop where
  split : tr = tr₁ ++ e :: tr₂
  frees : Frees e data file callerLine
  latest : ∀ f ∈ tr₂, ∀ file callerLine, ¬Frees f data file callerLine

/-- **A right report** on a redundant call: the address was returned and has been released since,
and the file and the line are those of the latest release. -/
def ReportsLatest (tr : List (Event Config Op Answer)) (data : ℕ) (r : Report) : Prop :=
  ∃ tr₁ e tr₂ file callerLine, LatestRelease tr tr₁ e tr₂ data file callerLine ∧
    (∃ f ∈ tr₁, Returns f data) ∧ r.freedAt = some (callerLine, file)

/-- A call of `customMalloc` that made a new entry at `a`, behind the block it returned. -/
def Makes (e : Event Config Op Answer) (a : ℕ) : Prop :=
  ∃ size file callerLine p, e.op = .malloc size file callerLine ∧ e.out = .pointer p none ∧
    a = p + size

/-- Since the latest release of `data` no call has made a new entry in front of it. -/
def NotRemade (tr : List (Event Config Op Answer)) (data : ℕ) : Prop :=
  ∃ tr₁ e tr₂ file callerLine, LatestRelease tr tr₁ e tr₂ data file callerLine ∧
    ∀ f ∈ tr₂, ¬Makes f (data - entrySize)

/-- An initialized heap stays initialized. -/
private theorem Effect.initialized {op : Op} {out : Answer} (he : Effect A s op out s')
    (hi : s.heap.initialized = true) : s'.heap.initialized = true := by
  cases he with
  | malloc hens hL hfree hfit hL' => exact hL'.initialized
  | mallocNull hens hL => exact hL.initialized
  | free hL hused hL' => exact hL'.initialized
  | freeError => exact hi
  | write => exact hi

/-- **New entries are made by splits only.** -/
theorem makes_of_stands (hocc : e.Occurs (machine A)) (hv : Valid A e.pre)
    (hi : e.pre.heap.initialized = true) (hpre : ¬e.pre.heap.Stands a)
    (hpost : e.post.heap.Stands a) : Makes e a := by
  have heff := Effect.of_occurs hocc hv
  obtain ⟨pre, op, out, post⟩ := e
  dsimp only at hv hi hpre hpost heff
  cases hv with
  | fresh h0 => exact absurd (h0.symm.trans hi) (by decide)
  | laidOut cs hL hco hlive =>
    have hens := ensureInit_of_layout hL
    cases heff with
    | @malloc size file callerLine h₁ h' l₁ l₂ c hens' hL₁ hfree hfit hL' =>
      obtain rfl := Option.some.inj (hens.symm.trans hens')
      rw [hL₁.stands_iff] at hpre
      rw [hL'.stands_iff] at hpost
      refine ⟨size, file, callerLine, _, rfl, rfl, ?_⟩
      simp only [Chunk.split, List.map_append, List.map_cons, List.map_nil, List.mem_append,
        List.mem_cons, List.not_mem_nil, or_false, not_or] at hpre hpost
      tauto
    | mallocNull hens' =>
      obtain rfl := Option.some.inj (hens.symm.trans hens')
      exact absurd hpost hpre
    | @free _ _ _ l₁ l₂ c hL₁ hused hL' =>
      refine absurd (hL₁.stands_iff.mpr ?_) hpre
      exact (map_addr_absorb entrySize l₁ l₂ c).mem
        ((map_addr_release entrySize l₁ l₂ c).mem (hL'.stands_iff.mp hpost))
    | freeError => exact absurd hpost hpre
    | write hb =>
      obtain ⟨b, hb, hlo, hhi⟩ := hb
      have hL' := hL.write (hlive.mem_iff.mp hb) hlo hhi
      exact absurd (hL.stands_iff.mpr ((hL' _).stands_iff.mp hpost)) hpre

/-- **The record of the latest release** is in the entry, if it has not been made anew. -/
theorem record_of_latest (hr : Run (machine A) (start A) tr s)
    (hlatest : LatestRelease tr tr₁ e tr₂ (a + entrySize) file callerLine)
    (hmade : ∀ f ∈ tr₂, ¬Makes f a) (hstands : s.heap.Stands a) :
    s.heap.record a = (file % 2 ^ 64, unsigned callerLine) := by
  obtain ⟨rfl, hfrees, hlatest⟩ := hlatest
  obtain ⟨h₁, hocc, -⟩ := hr.split
  have hsince := hr.since (I := fun t => t.heap.initialized = true ∧ (t.heap.Stands a →
    t.heap.record a = (file % 2 ^ 64, unsigned callerLine))) ?_ fun f hf ⟨_, hreach⟩ h hocc => ?_
  · exact hsince.2 hstands
  · have hv := valid_of_run h₁
    exact ⟨(hfrees.effect hocc hv).released.initialized, record_of_frees hocc hv hfrees⟩
  · obtain ⟨hi, hrecord⟩ := h
    have hv := valid_of_run hreach
    refine ⟨(Effect.of_occurs hocc hv).initialized hi, fun hpost => ?_⟩
    have hpre : f.pre.heap.Stands a :=
      not_not.mp fun hpre => hmade f hf (makes_of_stands hocc hv hi hpre hpost)
    rw [record_of_not_frees hocc hv hi (hlatest f hf) hpre hpost, hrecord hpre]

/-- **A redundant call is told the record** of the entry in front of the address. -/
theorem freedAt_of_occurs (hocc : e.Occurs (machine A)) (hv : Valid A e.pre)
    (hop : e.op = .free data file callerLine) (hout : e.out = .freed (some r))
    (hred : r.error = .freeRedundant) : ∃ a, data = a + entrySize ∧ e.pre.heap.Stands a ∧
      r.freedAt = some (toInt (e.pre.heap.record a).2, (e.pre.heap.record a).1) := by
  obtain ⟨pre, op, out, post⟩ := e
  obtain rfl : op = _ := hop
  obtain rfl : out = _ := hout
  have hstep := hocc.step
  dsimp only at hv hstep ⊢
  cases hv with
  | fresh hi =>
    obtain ⟨-, heq⟩ := heap_of_free hstep (customFree_of_not hi _ _ _)
    obtain rfl := Option.some.inj (Answer.freed.inj heq)
    cases hred
  | laidOut cs hL =>
    rcases customFree_spec hL data file callerLine with
      ⟨l₁, c, l₂, h', rfl, hused, haddr, hrun, -⟩ | ⟨r', hrun, hrej⟩
    · cases (heap_of_free hstep hrun).2
    · obtain ⟨-, heq⟩ := heap_of_free hstep hrun
      obtain rfl := Option.some.inj (Answer.freed.inj heq)
      obtain ⟨c, hc, heq⟩ := hrej.entry hred
      rw [hrej.redundant c hc heq]
      exact ⟨c.addr, heq, hL.stands_iff.mpr (List.mem_map_of_mem hc), rfl⟩

/-- **A redundant call is told where the latest release was**, in every run, unless the address
was not released before or a new entry has been made in front of it since then. -/
theorem redundant_report (hr : Run (machine A) (start A) (tr ++ e :: tr₂) s)
    (hop : e.op = .free data file callerLine) (hout : e.out = .freed (some r))
    (hred : r.error = .freeRedundant) (hmade : NotRemade tr data) : ReportsLatest tr data r := by
  obtain ⟨u₁, e₀, u₂, file₀, line₀, hlatest, hmade⟩ := hmade
  obtain ⟨h₁, hocc, -⟩ := hr.split
  obtain ⟨a, rfl, hstands, hfreed⟩ := freedAt_of_occurs hocc (valid_of_run h₁) hop hout hred
  rw [Nat.add_sub_cancel] at hmade
  have hrecord := record_of_latest h₁ hlatest hmade hstands
  -- the arguments of the release were in the ranges of their types
  obtain ⟨-, hocc₀, -⟩ := (hlatest.split ▸ h₁).split
  have hlegal := hocc₀.legal
  rw [hlatest.frees.1] at hlegal
  obtain ⟨-, hfile, hlo, hhi⟩ := hlegal
  refine ⟨u₁, e₀, u₂, file₀, line₀, hlatest,
    returned_of_frees (hlatest.split ▸ h₁) hlatest.frees, ?_⟩
  rw [hfreed, hrecord, Nat.mod_eq_of_lt hfile, toInt_unsigned hlo hhi]

/-- The first block is released once more. -/
def firstFreedAgain : Event Config Op Answer :=
  (machine lowArena).event firstFreed.post (.free 4136 8 32) (by decide +kernel)

private theorem run_firstFreedAgain : Run (machine lowArena) (start lowArena)
    (threeBlocksRun.1 ++ [firstFreed] ++ [firstFreedAgain]) firstFreedAgain.post :=
  run_firstFreed.snoc (Machine.event_occurs (by decide) (by decide +kernel))

theorem redundant_report_firstFreed : ReportsLatest (threeBlocksRun.1 ++ [firstFreed]) 4136
    (redundantReport firstFreed.post.heap 4096 4136 8 32) :=
  redundant_report run_firstFreedAgain rfl (by decide +kernel) rfl
    ⟨threeBlocksRun.1, firstFreed, [], 8, 31, ⟨rfl, frees_firstFreed, by simp⟩, by simp⟩

deriving instance DecidableEq for Op

/-- A session that releases two blocks, writes over the header of the second one and makes an
entry in its place. -/
def overwritten : List Op :=
  [.malloc 100 8 21, .malloc 100 8 22, .free 4276 8 23, .free 4136 8 24, .malloc 200 8 25,
    .write 4260 255, .free 4136 8 26, .malloc 100 8 27]

private theorem exec_overwritten :
    ((machine lowArena).exec (start lowArena) overwritten).isSome := by
  decide +kernel

/-- The trace of the session and the state it leads to. -/
def overwrittenRun : List (Event Config Op Answer) × Config :=
  ((machine lowArena).exec (start lowArena) overwritten).get exec_overwritten

/-- The second block is released once more. -/
def staleFreed : Event Config Op Answer :=
  (machine lowArena).event overwrittenRun.2 (.free 4276 8 28) (by decide +kernel)

private theorem run_staleFreed :
    Run (machine lowArena) (start lowArena) (overwrittenRun.1 ++ [staleFreed]) staleFreed.post :=
  (Machine.run_get exec_overwritten).snoc (Machine.event_occurs (by decide) (by decide +kernel))

/-- The second release is told a file pointer that the client wrote. -/
theorem not_redundant_report : ¬∀ (tr tr₂ : List (Event Config Op Answer))
    (e : Event Config Op Answer) (s : Config) (data file : ℕ) (callerLine : ℤ) (r : Report),
      Run (machine lowArena) (start lowArena) (tr ++ e :: tr₂) s →
      e.op = .free data file callerLine → e.out = .freed (some r) → r.error = .freeRedundant →
      ReportsLatest tr data r := by
  intro h
  have hout : staleFreed.out = .freed (some
      { errorReport 8 28 .freeRedundant 4276 with freedAt := some (23, 255) }) := by
    decide +kernel
  obtain ⟨u₁, e₀, u₂, file, line, ⟨hsplit, ⟨hop, -⟩, -⟩, -, hfreed⟩ :=
    h overwrittenRun.1 [] staleFreed _ 4276 8 28 _ run_staleFreed rfl hout rfl
  have hops : overwrittenRun.1.map Event.op = overwritten := by decide +kernel
  have hmem : e₀.op ∈ overwritten := by
    rw [← hops, hsplit]
    simp
  rw [hop] at hmem
  obtain ⟨rfl, rfl⟩ : file = 8 ∧ line = 23 := by simpa [overwritten] using hmem
  exact absurd hfreed (by decide)

end Cs214.EnhancedMalloc

import Cs214.Indexer.Removal
import Cs214.Library.Run

/-!
# Runs of the hash map

Calls of `hm_store` and `hm_remove`, one after the other, describe a finite map (`contents`).
`Represents` relates it to the hash map in memory. Every call keeps the relation and answers what
the finite map answers, unless it removes the entry of a key that is not in front of its list
(`Represents.step_spec`).

* `finiteMap_iff`: a run of the hash map is a run of the finite map, with no list leading to a
  destroyed node, if and only if every removal in it finds its key in front or not at all.
* `stores_iterated`: without removals the hash map keeps the entry of the first call for each
  key, and an iterator visits every one of them once.
-/

namespace Cs214.Hashmap

variable {K V : Type} {hm hm₀ hm' : HashmapT K V} {key k : K} {value : V} {addr : ℕ}
  {hash : K → ℤ} {compare : K → K → ℤ} {size : ℤ} {e : MapT K V} {n : ℕ} {hmi : HmIteratorT}
  {l : List ℕ}

/-! ### The finite map -/

/-- A call; `addr` is the address `malloc` answers. -/
inductive Call (K V : Type)
  | store (key : K) (value : V) (addr : ℕ)
  | remove (key : K)
  deriving DecidableEq

/-- What a call answers. -/
inductive Answer (V : Type)
  | stored (result : ℤ)
  | removed (value : Option V)
  deriving DecidableEq

/-- The hash map and its calls. -/
def machine : Machine (HashmapT K V) (Call K V) (Answer V) where
  legal hm call :=
    match call with
    | .store _ _ addr => addr ∉ hm.nodes.dom
    | .remove _ => True
  step hm call :=
    match call with
    | .store key value addr => do
      let (hm, result) ← hmStore hm key value addr
      some (hm, .stored result)
    | .remove key => do
      let (hm, value) ← hmRemove hm key
      some (hm, .removed value)

private theorem step_store {result : ℤ} (h : hmStore hm key value addr = some (hm', result)) :
    machine.step hm (.store key value addr) = some (hm', .stored result) := by
  simp [machine, h]

theorem step_remove {old : Option V} (h : hmRemove hm key = some (hm', old)) :
    machine.step hm (.remove key) = some (hm', .removed old) := by
  simp [machine, h]

/-- The finite map after a call: the first entry for a key stays until the key is removed. -/
def update (compare : K → K → ℤ) (m : K → Option (MapT K V)) : Call K V → K → Option (MapT K V)
  | .store key value _, k => if compare key k = 0 then (m k).or (some ⟨key, value⟩) else m k
  | .remove key, k => if compare key k = 0 then none else m k

/-- **The finite map** the calls describe. -/
def contents (compare : K → K → ℤ) (calls : List (Call K V)) : K → Option (MapT K V) :=
  calls.foldl (update compare) fun _ => none

/-- What the finite map answers. -/
def answer (m : K → Option (MapT K V)) : Call K V → Answer V
  | .store key _ _ => .stored (if (m key).isSome then 0 else 1)
  | .remove key => .removed ((m key).map MapT.value)

private theorem contents_append (compare : K → K → ℤ) (calls : List (Call K V)) (call : Call K V) :
    contents compare (calls ++ [call]) = update compare (contents compare calls) call := by
  simp [contents]

/-! ### The hash map represents it -/

/-- **The hash map holds the finite map `m`.** -/
structure Represents (hash : K → ℤ) (compare : K → K → ℤ) (m : K → Option (MapT K V))
    (hm : HashmapT K V) : Prop where
  valid : Valid hm
  hash_eq : hm.hash = hash
  compare_eq : hm.compare = compare
  entries : ∀ k e, m k = some e ↔ e ∈ hm.entries ∧ compare e.key k = 0

/-- An index is not negative if the hash is not. -/
theorem index_nonneg (hnn : ∀ k, 0 ≤ hm.hash k) (k : K) : 0 ≤ hm.index k :=
  Int.tmod_nonneg _ (hnn k)

private theorem represents_create (hcreate : hmCreate size hash compare = some hm₀) :
    Represents hash compare (contents compare []) (hm₀ : HashmapT K V) := by
  have hsize : 0 < size := by
    by_contra hsize
    rw [hmCreate, if_pos (not_lt.mp hsize)] at hcreate
    cases hcreate
  obtain ⟨hm, hcreate', hvalid, hentries, -, hhash, hcompare⟩ :=
    hmCreate_spec (V := V) hsize hash compare
  obtain rfl := Option.some.inj (hcreate.symm.trans hcreate')
  exact ⟨hvalid, hhash, hcompare, fun k e => by simp [contents, hentries]⟩

namespace Represents

variable {m : K → Option (MapT K V)}

private theorem eq_none (h : Represents hash compare m hm)
    (hall : ∀ e ∈ hm.entries, compare e.key k ≠ 0) :
    m k = none :=
  Option.eq_none_iff_forall_ne_some.mpr fun e he =>
    hall e ((h.entries k e).mp he).1 ((h.entries k e).mp he).2

/-- **`hm_get`** answers the entry of the finite map. -/
theorem get (h : Represents hash compare m hm) (hh : Hashing hash compare)
    (hnn : ∀ k, 0 ≤ hash k) (k : K) : (hmGet hm k).map (·.bind hm.map) = some (m k) := by
  obtain ⟨hvalid, rfl, rfl, hentries⟩ := h
  rcases hmGet_spec hvalid hh (index_nonneg hnn k) with
    ⟨hget, hall⟩ | ⟨a, node, hget, ha, hnode, heq⟩
  · rw [hget, eq_none ⟨hvalid, rfl, rfl, hentries⟩ hall]
    rfl
  · have hmap : node.map ∈ hm.entries := HashmapT.mem_entries.mpr ⟨a, ha, node, hnode, rfl⟩
    rw [hget, (hentries k node.map).mpr ⟨hmap, heq⟩]
    simp [HashmapT.map, hnode]

/-- A new entry in the hash map is one in the finite map. -/
private theorem added (h : Represents hash compare m hm) (hh : Hashing hash compare)
    (hadd : Added hm ⟨key, value⟩ hm') :
    Represents hash compare (update compare m (.store key value addr)) hm' := by
  obtain ⟨hvalid, rfl, rfl, hentries⟩ := h
  refine ⟨hadd.valid, hadd.hash, hadd.compare, fun k e => ?_⟩
  rw [hadd.entries, update]
  split_ifs with hk
  · have hnone : m k = none :=
      eq_none ⟨hvalid, rfl, rfl, hentries⟩ fun e he hek =>
        hadd.new e he (hh.trans _ _ _ hek (hh.symm _ _ hk))
    rw [hnone, Option.none_or, Option.some.injEq]
    constructor
    · rintro rfl
      exact ⟨.inl rfl, hk⟩
    · rintro ⟨rfl | he, hek⟩
      · rfl
      · rw [(hentries k e).mpr ⟨he, hek⟩] at hnone
        cases hnone
  · rw [hentries]
    constructor
    · rintro ⟨he, hek⟩
      exact ⟨.inr he, hek⟩
    · rintro ⟨rfl | he, hek⟩
      · exact absurd hek hk
      · exact ⟨he, hek⟩

/-- A call for a key that has an entry leaves the finite map as it is. -/
private theorem update_store (h : Represents hash compare m hm) (hh : Hashing hash compare)
    (hkey : (m key).isSome) : update compare m (.store key value addr) = m := by
  obtain ⟨e, he⟩ := Option.isSome_iff_exists.mp hkey
  funext k
  rw [update]
  split_ifs with hk
  · rw [h.entries] at he
    rw [(h.entries k e).mpr ⟨he.1, hh.trans _ _ _ he.2 hk⟩, Option.some_or]
  · rfl

/-- **`hm_store`** on a hash map that represents `m`. -/
theorem store (h : Represents hash compare m hm) (hh : Hashing hash compare)
    (hnn : ∀ k, 0 ≤ hash k) (key : K) (value : V) (haddr : addr ∉ hm.nodes.dom) :
    (hmStore hm key value addr = some (hm, 0) ∧ (m key).isSome) ∨
      ∃ hm', hmStore hm key value addr = some (hm', 1) ∧ m key = none ∧
        Added hm ⟨key, value⟩ hm' := by
  obtain ⟨hvalid, rfl, rfl, hentries⟩ := h
  rcases hmStore_spec hvalid hh (index_nonneg hnn key) haddr value with
    ⟨hstore, e, he, heq⟩ | ⟨hm', hstore, hadd⟩
  · exact .inl ⟨hstore, by rw [(hentries key e).mpr ⟨he, heq⟩]; rfl⟩
  · exact .inr ⟨hm', hstore, eq_none ⟨hvalid, rfl, rfl, hentries⟩ hadd.new, hadd⟩

/-- The finite map after a removal. -/
private theorem removed (h : Represents hash compare m hm) (hh : Hashing hash compare)
    (hrem : Removed hm key hm') :
    Represents hash compare (update compare m (.remove key)) hm' := by
  obtain ⟨hvalid, rfl, rfl, hentries⟩ := h
  refine ⟨hrem.valid, hrem.hash, hrem.compare, fun k e => ?_⟩
  rw [hrem.entries, update]
  split_ifs with hk
  · refine iff_of_false (by simp) fun hek => hek.1.2 ?_
    exact hh.trans _ _ _ hek.2 (hh.symm _ _ hk)
  · rw [hentries]
    refine ⟨fun he => ⟨⟨he.1, fun hkey => hk ?_⟩, he.2⟩, fun he => ⟨he.1.1, he.2⟩⟩
    exact hh.trans _ _ _ (hh.symm _ _ hkey) he.2

/-- A removal of a key without an entry leaves the finite map as it is. -/
private theorem update_remove (h : Represents hash compare m hm) (hh : Hashing hash compare)
    (hall : ∀ e ∈ hm.entries, compare e.key key ≠ 0) : update compare m (.remove key) = m := by
  funext k
  rw [update]
  split_ifs with hk
  · exact (h.eq_none fun e he hek => hall e he (hh.trans _ _ _ hek (hh.symm _ _ hk))).symm
  · rfl

/-- Every call is answered. -/
private theorem isSome_step (h : Represents hash compare m hm) (hh : Hashing hash compare)
    (hnn : ∀ k, 0 ≤ hash k) {call : Call K V} (hlegal : machine.legal hm call) :
    (machine.step hm call).isSome := by
  cases call with
  | store key value addr =>
    rcases h.store hh hnn key value hlegal with ⟨hstore, -⟩ | ⟨hm', hstore, -⟩
    · simp [machine, hstore]
    · simp [machine, hstore]
  | remove key =>
    obtain ⟨hvalid, rfl, rfl, -⟩ := h
    rcases hmRemove_spec hvalid hh (index_nonneg hnn key) with ⟨hrem, -⟩ | ⟨hm', e, hrem, -⟩
    · simp [machine, hrem]
    · simp [machine, hrem]

/-- **One call** that does not remove a key from behind its list answers what the finite map
answers, and keeps the relation to it. -/
theorem step_spec (h : Represents hash compare m hm) (hh : Hashing hash compare)
    (hnn : ∀ k, 0 ≤ hash k) {call : Call K V} {result : Answer V}
    (hlegal : machine.legal hm call) (hstep : machine.step hm call = some (hm', result))
    (hfront : ∀ key, call = .remove key → InFront hm key) :
    result = answer m call ∧ Represents hash compare (update compare m call) hm' := by
  cases call with
  | store key value addr =>
    rcases h.store hh hnn key value hlegal with ⟨hstore, hkey⟩ | ⟨hm₁, hstore, hkey, hadd⟩
    · obtain ⟨rfl, rfl⟩ := Prod.mk.inj (Option.some.inj ((step_store hstore).symm.trans hstep))
      rw [h.update_store hh hkey]
      exact ⟨by rw [answer, if_pos hkey], h⟩
    · obtain ⟨rfl, rfl⟩ := Prod.mk.inj (Option.some.inj ((step_store hstore).symm.trans hstep))
      exact ⟨by simp [answer, hkey], h.added hh hadd⟩
  | remove key =>
    have hspec := h
    obtain ⟨hvalid, rfl, rfl, hentries⟩ := hspec
    rcases hmRemove_spec hvalid hh (index_nonneg hnn key) with
      ⟨hrem, -, hall⟩ | ⟨hm₁, e, hrem, he, heq, ⟨-, hremoved⟩ | ⟨hnot, -⟩⟩
    · obtain ⟨rfl, rfl⟩ := Prod.mk.inj (Option.some.inj ((step_remove hrem).symm.trans hstep))
      rw [h.update_remove hh hall, answer, h.eq_none hall]
      exact ⟨rfl, h⟩
    · obtain ⟨rfl, rfl⟩ := Prod.mk.inj (Option.some.inj ((step_remove hrem).symm.trans hstep))
      rw [answer, (hentries key e).mpr ⟨he, heq⟩]
      exact ⟨rfl, h.removed hh hremoved⟩
    · exact absurd (hfront key rfl) hnot

/-- **A removal from behind a list** leaves a pointer to the destroyed node. -/
theorem not_linked (h : Represents hash compare m hm) (hh : Hashing hash compare)
    (hnn : ∀ k, 0 ≤ hash k) {result : Answer V}
    (hstep : machine.step hm (.remove key) = some (hm', result)) (hfront : ¬InFront hm key) :
    ¬Linked hm' := by
  obtain ⟨hvalid, rfl, rfl, -⟩ := h
  rcases hmRemove_spec hvalid hh (index_nonneg hnn key) with
    ⟨-, hin, -⟩ | ⟨hm₁, e, hrem, -, -, ⟨hin, -⟩ | ⟨-, hlinked⟩⟩
  · exact absurd hin hfront
  · exact absurd hin hfront
  · obtain ⟨rfl, -⟩ := Prod.mk.inj (Option.some.inj ((step_remove hrem).symm.trans hstep))
    exact hlinked

end Represents

/-! ### Runs -/

/-- What a user sees of a hash map that is the finite map `m`: its entries, through `hm_get`,
answers to all further calls, and no list that leads to a destroyed node. -/
structure IsMap (m : K → Option (MapT K V)) (hm : HashmapT K V) : Prop where
  get : ∀ k, (hmGet hm k).map (·.bind hm.map) = some (m k)
  answers : ∀ call, machine.legal hm call → (machine.step hm call).isSome
  linked : Linked hm

/-- The entries the calls of a run describe. -/
def described (compare : K → K → ℤ)
    (tr : List (Event (HashmapT K V) (Call K V) (Answer V))) : K → Option (MapT K V) :=
  contents compare (tr.map Event.op)

/-- **A run of the finite map**: every state is the finite map of the calls before it, and every
call answers from it. -/
structure Lawful (compare : K → K → ℤ) (tr : List (Event (HashmapT K V) (Call K V) (Answer V)))
    (hm : HashmapT K V) : Prop where
  final : IsMap (described compare tr) hm
  calls : ∀ tr₁ e tr₂, tr = tr₁ ++ e :: tr₂ →
    IsMap (described compare tr₁) e.pre ∧ e.out = answer (described compare tr₁) e.op

private theorem described_append (compare : K → K → ℤ)
    (tr : List (Event (HashmapT K V) (Call K V) (Answer V)))
    (e : Event (HashmapT K V) (Call K V) (Answer V)) :
    described compare (tr ++ [e]) = update compare (described compare tr) e.op := by
  rw [described, List.map_append, List.map_singleton, contents_append, described]

private theorem Represents.isMap {m : K → Option (MapT K V)} (h : Represents hash compare m hm)
    (hh : Hashing hash compare) (hnn : ∀ k, 0 ≤ hash k) : IsMap m hm :=
  ⟨h.get hh hnn, fun _ hlegal => h.isSome_step hh hnn hlegal, h.valid.linked⟩

section Run

variable {tr : List (Event (HashmapT K V) (Call K V) (Answer V))}

/-- A hash map represents the finite map of the calls that led to it. -/
theorem represents_of_run (hh : Hashing hash compare) (hnn : ∀ k, 0 ≤ hash k)
    (hcreate : hmCreate size hash compare = some hm₀) (h : Run machine hm₀ tr hm)
    (hfront : ∀ e ∈ tr, ∀ key, e.op = .remove key → InFront e.pre key) :
    Represents hash compare (described compare tr) hm := by
  induction h with
  | nil => exact represents_create hcreate
  | @snoc tr e _ he ih =>
    have ih := ih fun f hf => hfront f (List.mem_append_left _ hf)
    rw [described_append]
    exact (ih.step_spec hh hnn he.legal he.step (hfront e (by simp))).2

/-- **The hash map is a finite map** through a run, and no list leads to a destroyed node, if
and only if each removal in it is of a key whose entry, if there is one, is in front of its
list. -/
theorem finiteMap_iff (hh : Hashing hash compare) (hnn : ∀ k, 0 ≤ hash k)
    (hcreate : hmCreate size hash compare = some hm₀) (h : Run machine hm₀ tr hm) :
    Lawful compare tr hm ↔ ∀ e ∈ tr, ∀ key, e.op = .remove key → InFront e.pre key := by
  constructor
  · intro hlawful
    induction h with
    | nil => simp
    | @snoc tr f hrun hf ih =>
      -- the run without its last call
      have hpre := ih ⟨(hlawful.calls tr f [] rfl).1, fun tr₁ e tr₂ htr =>
        hlawful.calls tr₁ e (tr₂ ++ [f]) (by simp [htr])⟩
      intro e he key hop
      rcases List.mem_append.mp he with he | he
      · exact hpre e he key hop
      · obtain rfl := List.mem_singleton.mp he
        by_contra hfront
        have hstep := hf.step
        rw [hop] at hstep
        have hrep := represents_of_run hh hnn hcreate hrun hpre
        exact hrep.not_linked hh hnn hstep hfront hlawful.final.linked
  · intro hfront
    refine ⟨(represents_of_run hh hnn hcreate h hfront).isMap hh hnn, fun tr₁ e tr₂ htr => ?_⟩
    subst htr
    obtain ⟨hrun, he, -⟩ := h.split
    have hrep := represents_of_run hh hnn hcreate hrun fun f hf =>
      hfront f (List.mem_append_left _ hf)
    exact ⟨hrep.isMap hh hnn,
      (hrep.step_spec hh hnn he.legal he.step (hfront e (by simp))).1⟩

end Run

/-! ### Entries that are only stored -/

/-- The answers of `n` calls of `hmi_get_next`. -/
def visits (hm : HashmapT K V) : ℕ → HmIteratorT → Option (List (Option ℕ))
  | 0, _ => some []
  | n + 1, hmi => do
    let (hmi, node) ← hmiGetNext hm hmi
    let nodes ← visits hm n hmi
    some (node :: nodes)

/-- The entries that are offered to `hm_store`. -/
def offered (tr : List (Event (HashmapT K V) (Call K V) (Answer V))) : List (MapT K V) :=
  tr.filterMap fun e =>
    match e.op with
    | .store key value _ => some ⟨key, value⟩
    | .remove _ => none

/-- The entries for which `hm_store` answers `1`. -/
def kept (tr : List (Event (HashmapT K V) (Call K V) (Answer V))) : List (MapT K V) :=
  tr.filterMap fun e =>
    match e.op, e.out with
    | .store key value _, .stored 1 => some ⟨key, value⟩
    | _, _ => none

/-- **A user of a hash map that only stores** sees that the first entry for a key stays, and
that an iterator visits what stays. -/
structure KeepsFirst (compare : K → K → ℤ)
    (tr : List (Event (HashmapT K V) (Call K V) (Answer V))) (hm : HashmapT K V) : Prop where
  stored : ∀ tr₁ e tr₂ key value addr, tr = tr₁ ++ e :: tr₂ → e.op = .store key value addr →
    (e.out = .stored 1 ∧ ∀ d ∈ offered tr₁, compare d.key key ≠ 0) ∨
      (e.out = .stored 0 ∧ e.post = e.pre ∧ ∃ d ∈ offered tr₁, compare d.key key = 0)
  answers : ∀ key value addr, addr ∉ hm.nodes.dom → (hmStore hm key value addr).isSome
  get : ∀ k, (hmGet hm k).map (·.bind hm.map) =
    some ((offered tr).find? fun d => compare d.key k = 0)
  iterated : ∃ l : List ℕ, (l.map hm.map).Perm ((kept tr).map some) ∧
    ∀ n, visits hm n hmCreateIterator = some ((List.range n).map (l[·]?))

/-- The calls on an iterator answer the nodes that remain, one after the other, and then null. -/
private theorem visits_eq (hv : Valid hm) (h : Remaining hm hmi l) :
    visits hm n hmi = some ((List.range n).map (l[·]?)) := by
  induction n generalizing hmi l with
  | zero => rfl
  | succ n ih =>
    obtain ⟨hmi', hnext, hrest⟩ := hmiGetNext_spec hv h
    simp only [visits, hnext, Option.bind_eq_bind, Option.bind_some, ih hrest,
      List.range_succ_eq_map, List.map_cons, List.map_map, List.head?_eq_getElem?,
      Option.some.injEq, List.cons.injEq, true_and]
    refine List.map_congr_left fun i _ => ?_
    rw [Function.comp, List.getElem?_tail]

/-- The nodes hold the entries. -/
theorem Valid.map_addresses (h : Valid hm) : hm.addresses.map hm.map = hm.entries.map some := by
  rw [HashmapT.entries, List.map_filterMap_some_eq_filter_map_isSome]
  symm
  rw [List.filter_eq_self]
  intro e he
  obtain ⟨a, ha, rfl⟩ := List.mem_map.mp he
  obtain ⟨node, hnode⟩ := h.exists_cell ha
  rw [HashmapT.map, hnode]
  rfl

/-- **No entry is there twice.** -/
theorem Valid.entries_nodup (h : Valid hm) (hh : Hashing hm.hash hm.compare) :
    hm.entries.Nodup := by
  refine List.pairwise_filterMap.mpr (h.addresses_nodup.imp_of_mem ?_)
  rintro a b ha hb hab e he e' he' rfl
  obtain ⟨m, hm₁, rfl⟩ := Option.map_eq_some_iff.mp he
  obtain ⟨n, hn₁, hmn⟩ := Option.map_eq_some_iff.mp he'
  exact hab (h.distinct a ha b hb m n hm₁ hn₁ (by rw [hmn]; exact hh.refl _))

/-- The entries after one has been added. -/
theorem Added.perm (h : Added hm e hm') (hv : Valid hm) (hh : Hashing hm.hash hm.compare) :
    hm'.entries.Perm (hm.entries ++ [e]) := by
  have hh' : Hashing hm'.hash hm'.compare := by rwa [h.hash, h.compare]
  refine (List.perm_ext_iff_of_nodup (h.valid.entries_nodup hh') ?_).mpr fun e' => ?_
  · refine List.nodup_append.mpr ⟨hv.entries_nodup hh, List.nodup_singleton e, ?_⟩
    rintro e' he' _ he rfl
    obtain rfl := List.mem_singleton.mp he
    exact h.new e' he' (hh.refl _)
  · rw [h.entries, List.mem_append, List.mem_singleton, or_comm]

section Stores

variable {tr : List (Event (HashmapT K V) (Call K V) (Answer V))}

/-- Without removals the finite map has the first entry that was offered for each key. -/
private theorem described_eq_find? (compare : K → K → ℤ)
    (hstore : ∀ e ∈ tr, ∀ key, e.op ≠ .remove key)
    (k : K) : described compare tr k = (offered tr).find? fun d => compare d.key k = 0 := by
  induction tr using List.reverseRecOn with
  | nil => rfl
  | append_singleton tr e ih =>
    have ih := ih fun f hf => hstore f (List.mem_append_left _ hf)
    have hnot := hstore e (by simp)
    rw [described_append, offered, List.filterMap_append, List.find?_append, ← offered, ← ih]
    cases hop : e.op with
    | store key value addr =>
      simp only [update, hop, List.filterMap_cons, List.filterMap_nil, List.find?_cons,
        List.find?_nil]
      by_cases hk : compare key k = 0
      · simp [hk]
      · simp [hk]
    | remove key => exact absurd hop (hnot key)

/-- The entries of the hash map are those that were kept. -/
private theorem entries_perm_kept (hh : Hashing hash compare) (hnn : ∀ k, 0 ≤ hash k)
    (hcreate : hmCreate size hash compare = some hm₀) (h : Run machine hm₀ tr hm)
    (hstore : ∀ e ∈ tr, ∀ key, e.op ≠ .remove key) : hm.entries.Perm (kept tr) := by
  induction h with
  | nil =>
    have hrep := represents_create hcreate
    refine List.Perm.of_eq (List.eq_nil_iff_forall_not_mem.mpr fun e he => ?_)
    have := (hrep.entries e.key e).mpr ⟨he, hh.refl _⟩
    cases this
  | @snoc tr e hrun he ih =>
    have ih := ih fun f hf => hstore f (List.mem_append_left _ hf)
    have hrep := represents_of_run hh hnn hcreate hrun fun f hf key hop =>
      absurd hop (hstore f (List.mem_append_left _ hf) key)
    rw [kept, List.filterMap_append, ← kept]
    obtain ⟨hlegal, hstep⟩ := he
    cases hop : e.op with
    | store key value addr =>
      rw [hop] at hlegal hstep
      rcases hrep.store hh hnn key value hlegal with ⟨hs, -⟩ | ⟨hm₁, hs, -, hadd⟩
      · obtain ⟨hpost, hout⟩ := Prod.mk.inj (Option.some.inj ((step_store hs).symm.trans hstep))
        simpa [hop, ← hout, ← hpost] using ih
      · obtain ⟨hpost, hout⟩ := Prod.mk.inj (Option.some.inj ((step_store hs).symm.trans hstep))
        have hperm := hadd.perm hrep.valid (by rw [hrep.hash_eq, hrep.compare_eq]; exact hh)
        rw [← hpost]
        refine hperm.trans ?_
        simp only [List.filterMap_cons, List.filterMap_nil, hop, ← hout]
        exact ih.append_right _
    | remove key => exact absurd hop (hstore e (by simp) key)

/-- **A hash map that entries are only stored in** keeps the first one for each key, and an
iterator visits each of those once and then answers null forever. -/
theorem stores_iterated (hh : Hashing hash compare) (hnn : ∀ k, 0 ≤ hash k)
    (hcreate : hmCreate size hash compare = some hm₀) (h : Run machine hm₀ tr hm)
    (hstore : ∀ e ∈ tr, ∀ key, e.op ≠ .remove key) : KeepsFirst compare tr hm := by
  have hrep := represents_of_run hh hnn hcreate h fun f hf key hop =>
    absurd hop (hstore f hf key)
  refine ⟨fun tr₁ e tr₂ key value addr htr hop => ?_, fun key value addr haddr => ?_,
    fun k => ?_, hm.addresses, ?_, fun n => visits_eq hrep.valid (remaining_create hrep.valid)⟩
  · subst htr
    obtain ⟨hrun, ⟨hlegal, hstep⟩, -⟩ := h.split
    have hstore₁ : ∀ f ∈ tr₁, ∀ key, f.op ≠ .remove key := fun f hf =>
      hstore f (List.mem_append_left _ hf)
    have hrep₁ := represents_of_run hh hnn hcreate hrun fun f hf key hop =>
      absurd hop (hstore₁ f hf key)
    rw [hop] at hlegal hstep
    rcases hrep₁.store hh hnn key value hlegal with ⟨hs, hkey⟩ | ⟨hm₁, hs, hkey, -⟩
    · obtain ⟨hpost, hout⟩ := Prod.mk.inj (Option.some.inj ((step_store hs).symm.trans hstep))
      rw [described_eq_find? compare hstore₁, List.find?_isSome] at hkey
      exact .inr ⟨hout.symm, hpost.symm, by simpa using hkey⟩
    · obtain ⟨-, hout⟩ := Prod.mk.inj (Option.some.inj ((step_store hs).symm.trans hstep))
      rw [described_eq_find? compare hstore₁, List.find?_eq_none] at hkey
      exact .inl ⟨hout.symm, by simpa using hkey⟩
  · rcases hrep.store hh hnn key value haddr with ⟨hs, -⟩ | ⟨hm₁, hs, -⟩
    · simp [hs]
    · simp [hs]
  · rw [hrep.get hh hnn, described_eq_find? compare hstore]
  · rw [hrep.valid.map_addresses]
    exact (entries_perm_kept hh hnn hcreate h hstore).map some

end Stores

section Example

/-- Keys that are equal or not. -/
def sameKey (a b : ℕ) : ℤ := if a = b then 0 else 1

theorem hashing_sameKey : Hashing (fun _ => 0) sameKey where
  refl k := if_pos rfl
  symm k k' h := by
    unfold sameKey at *
    grind
  trans k k' k'' h h' := by
    unfold sameKey at *
    grind
  hash _ _ _ := rfl

/-- A hash map with a single list. -/
def oneList : HashmapT ℕ ℕ := ⟨1, [none], fun _ => 0, sameKey, .empty⟩

theorem hmCreate_oneList : hmCreate 1 (fun _ => 0) sameKey = some oneList := rfl

instance (hm : HashmapT K V) (call : Call K V) : Decidable (machine.legal hm call) :=
  match call with
  | .store _ _ addr => inferInstanceAs (Decidable (addr ∉ hm.nodes.dom))
  | .remove _ => inferInstanceAs (Decidable True)

theorem finiteMap_iff_front : ∃ tr hm, Run machine oneList tr hm ∧
    tr.map Event.op = [.store 1 10 0, .store 2 20 1, .remove 1] ∧
    (Lawful sameKey tr hm ↔ ∀ e ∈ tr, ∀ key, e.op = .remove key → InFront e.pre key) :=
  have hrun := machine.run_get (show (machine.exec oneList
    [.store 1 10 0, .store 2 20 1, .remove 1]).isSome by decide)
  ⟨_, _, hrun, by decide, finiteMap_iff hashing_sameKey (fun _ => le_rfl) hmCreate_oneList hrun⟩

/-- Removing the second of two entries: `hm_get` then reads the destroyed node. -/
theorem not_finiteMap : ∃ tr hm, Run machine oneList tr hm ∧
    tr.map Event.op = [.store 1 10 0, .store 2 20 1, .remove 2] ∧ hmGet hm 2 = none ∧
    ¬Lawful sameKey tr hm := by
  have hrun := machine.run_get (show (machine.exec oneList
    [.store 1 10 0, .store 2 20 1, .remove 2]).isSome by decide)
  have hget : hmGet ((machine.exec oneList [.store 1 10 0, .store 2 20 1, .remove 2]).get
      (by decide)).2 2 = none := by decide
  refine ⟨_, _, hrun, by decide, hget, fun hlawful => ?_⟩
  have := hlawful.final.get 2
  rw [hget] at this
  cases this

theorem stores_iterated_collision : ∃ tr hm, Run machine oneList tr hm ∧
    tr.map Event.op = [.store 1 10 0, .store 2 20 1, .store 1 30 2] ∧
    KeepsFirst sameKey tr hm := by
  have hrun := machine.run_get (show (machine.exec oneList
    [.store 1 10 0, .store 2 20 1, .store 1 30 2]).isSome by decide)
  have hops : ((machine.exec oneList [.store 1 10 0, .store 2 20 1, .store 1 30 2]).get
      (by decide)).1.map Event.op = [.store 1 10 0, .store 2 20 1, .store 1 30 2] := by decide
  refine ⟨_, _, hrun, hops, stores_iterated hashing_sameKey (fun _ => le_rfl) hmCreate_oneList
    hrun fun e he key hop => ?_⟩
  have hmem := List.mem_map_of_mem (f := Event.op) he
  rw [hops, hop] at hmem
  simp at hmem

end Example

end Cs214.Hashmap

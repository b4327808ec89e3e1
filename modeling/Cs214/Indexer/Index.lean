import Cs214.Indexer.WordCount
import Cs214.SortedList.Listing

/-!
# Adding a file to the index

`Indeces.Valid` is the invariant of the index: the list of tokens and each list of records is a
lawful sorted list, tokens have records, and no two tokens share a list. `Under s t r` says that
the record `r` is listed under the token `t`. One round of the loop of `index_file` adds one
record under one token (`addRecord_spec`), so `index_file` adds, for each word of the file, the
record of its count (`indexFile_spec`), and a run over some files those of all of them
(`indexFiles_some`).
-/

namespace Cs214.Indexer

open Tokenizer SortedList

variable (malloc : Allocator) {s s' : Indeces} {x y : IndexT} {xs ys : List IndexT} {i n : ℕ}
  {w : World IndexT} {t token path offset text : CString} {r : RecordT}
  {e : Hashmap.MapT CString ℤ} {hm : Hashmap.HashmapT CString ℤ} {hmi : Hashmap.HmIteratorT}
  {l : List ℕ} {fs : FileSystem}

/-- **The invariant of the index.** -/
structure Indeces.Valid (s : Indeces) : Prop where
  list : Holds indexComparator s.list s.list.items
  records : ∀ x ∈ s.list.items, ∃ w, s.records.cell x.records = some w ∧
    Holds recordComparator w w.items ∧ w.items ≠ []
  distinct : ∀ x ∈ s.list.items, ∀ y ∈ s.list.items, x.records = y.records → x = y

/-- **The record `r` is listed under the token `t`.** -/
def Under (s : Indeces) (t : CString) (r : RecordT) : Prop :=
  ∃ x ∈ s.list.items, x.token = t ∧ ∃ w, s.records.cell x.records = some w ∧ r ∈ w.items

theorem slCreate_compareRecord : slCreate compareRecord .func = start recordComparator := by
  rw [start, recordComparator_compare]

private theorem holds_createIndeces : Holds indexComparator createIndeces.list [] := by
  have hstart : createIndeces.list = start indexComparator := by
    rw [start, indexComparator_compare]
    rfl
  exact hstart ▸ holds_start indexComparator

/-- The index that `main` starts with. -/
theorem valid_createIndeces : createIndeces.Valid := by
  have hnil : createIndeces.list.items = [] := holds_createIndeces.items
  refine ⟨hnil ▸ holds_createIndeces, ?_, ?_⟩ <;> rw [hnil] <;> simp

private theorem not_under_createIndeces : ¬Under createIndeces t r := by
  rintro ⟨x, hx, -⟩
  rw [holds_createIndeces.items] at hx
  cases hx

/-- A token is listed once. -/
theorem Indeces.Valid.eq_of_token (h : s.Valid) (hx : x ∈ s.list.items) (hy : y ∈ s.list.items)
    (hxy : x.token = y.token) : x = y :=
  h.list.valid.items_unique hx hy (indexComparator_eq_zero.mpr hxy)

/-! ### Searching the list of tokens -/

/-- The test of `find_index`. -/
def hasToken (token : CString) (x : IndexT) : Bool := strcmp x.token token = 0

/-- The loop of `find_index` finds the first item with the token among the items ahead. -/
private theorem findIndexLoop_spec (token : CString) (h : Reading indexComparator w i xs ys)
    (hn : ys.length < n) :
    ∃ w', findIndexLoop token i n w ys.head? = some (w', ys.find? (hasToken token)) ∧
      Holds indexComparator w' (xs ++ ys) := by
  induction n generalizing w xs ys with
  | zero => exact absurd hn (Nat.not_lt_zero _)
  | succ n ih =>
    cases ys with
    | nil =>
      obtain ⟨w', hrun, hw'⟩ := h.destroyIterator
      exact ⟨w', by simp [findIndexLoop, hrun], hw'⟩
    | cons x ys =>
      by_cases hx : strcmp x.token token = 0
      · obtain ⟨w', hrun, hw'⟩ := h.destroyIterator
        exact ⟨w', by simp [findIndexLoop, hx, hrun, hasToken], hw'⟩
      · obtain ⟨w₁, hrun, h₁⟩ := h.nextItem
        obtain ⟨w', hloop, hw'⟩ := ih h₁ (by simpa using hn)
        refine ⟨w', by simp [findIndexLoop, hx, hrun, hloop, hasToken], ?_⟩
        rwa [List.append_assoc] at hw'

/-- **`find_index`** finds the item with the token and keeps the list. -/
theorem findIndex_spec (h : Holds indexComparator w xs) (token : CString) :
    ∃ w', findIndex malloc w token = some (w', xs.find? (hasToken token)) ∧
      Holds indexComparator w' xs := by
  obtain ⟨w₁, hcreate, h₁⟩ := h.createIterator (malloc.fresh w.iterators.dom)
  obtain ⟨w', hloop, hw'⟩ := findIndexLoop_spec token h₁ h₁.holds.length_lt_fuel
  exact ⟨w', by simp [findIndex, hcreate, h₁.getItem, hloop], hw'⟩

/-! ### Adding a record -/

/-- **A list of records** after a record has been inserted: an equal record is the record. -/
theorem insert_spec {w : World RecordT} {rs : List RecordT} (h : Holds recordComparator w rs)
    (r : RecordT) :
    ∃ w' k, indexerSLInsert w r (malloc.alloc w.nodes.dom) = some (w', k) ∧
      Holds recordComparator w' w'.items ∧ ∀ r', r' ∈ w'.items ↔ r' = r ∨ r' ∈ rs := by
  rcases h.insert (passes_pos _) (malloc.fresh w.nodes.dom) r with
    ⟨hrun, r', hr', heq⟩ | ⟨w', rs', hrun, hw', hperm⟩
  · obtain rfl := recordComparator_eq_zero.mp heq
    refine ⟨w, 0, hrun, h.items ▸ h, fun r'' => ?_⟩
    rw [h.items]
    exact ⟨.inr, fun h' => h'.elim (fun heq => heq ▸ hr') id⟩
  · refine ⟨w', 1, hrun, hw'.items ▸ hw', fun r' => ?_⟩
    rw [hw'.items, hperm.mem_iff, List.mem_cons]

/-- Adding a record under a token that is listed. -/
private theorem insertRecord_spec (h : s.Valid) (hx : x ∈ s.list.items) (r : RecordT) :
    ∃ s', insertRecord malloc s x.records r = some s' ∧ s'.Valid ∧
      ∀ t r', Under s' t r' ↔ (t = x.token ∧ r' = r) ∨ Under s t r' := by
  obtain ⟨w, hw, hholds, -⟩ := h.records x hx
  obtain ⟨w', k, hrun, hholds', hmem⟩ := insert_spec malloc hholds r
  refine ⟨{ s with records := s.records.insert x.records w' }, by simp [insertRecord, hw, hrun],
    ⟨h.list, fun y hy => ?_, h.distinct⟩, fun t r' => ⟨?_, ?_⟩⟩
  · by_cases hyx : y.records = x.records
    · refine ⟨w', by rw [hyx, Store.insert_cell_self], hholds', fun hnil => ?_⟩
      have hr := (hmem r).mpr (.inl rfl)
      rw [hnil] at hr
      cases hr
    · obtain ⟨u, hu, hu'⟩ := h.records y hy
      exact ⟨u, by rw [Store.insert_cell_of_ne _ _ hyx, hu], hu'⟩
  · rintro ⟨y, hy, rfl, u, hu, hr'⟩
    rcases Store.insert_cell_eq_some.mp hu with ⟨hyx, rfl⟩ | ⟨-, hu⟩
    · obtain rfl := h.distinct y hy x hx hyx
      exact ((hmem r').mp hr').imp (fun heq => ⟨rfl, heq⟩) fun hr' => ⟨y, hy, rfl, w, hw, hr'⟩
    · exact .inr ⟨y, hy, rfl, u, hu, hr'⟩
  · rintro (⟨rfl, rfl⟩ | ⟨y, hy, rfl, u, hu, hr'⟩)
    · exact ⟨x, hx, rfl, w', Store.insert_cell_self _ _ _, (hmem r').mpr (.inl rfl)⟩
    · by_cases hyx : y.records = x.records
      · rw [hyx, hw] at hu
        obtain rfl := Option.some.inj hu
        exact ⟨y, hy, rfl, w', by rw [hyx, Store.insert_cell_self], (hmem r').mpr (.inr hr')⟩
      · exact ⟨y, hy, rfl, u, by rw [Store.insert_cell_of_ne _ _ hyx, hu], hr'⟩

/-- Adding the first record under a new token. -/
private theorem createIndex_spec (h : s.Valid) (hnew : ∀ x ∈ s.list.items, x.token ≠ token)
    (r : RecordT) :
    ∃ s', (do
        let (s, newIndex) := createIndex malloc s token
        let s ← insertRecord malloc s newIndex.records r
        let (list, _) ← indexerSLInsert s.list newIndex (malloc.alloc s.list.nodes.dom)
        some { s with list := list }) = some s' ∧ s'.Valid ∧
      ∀ t r', Under s' t r' ↔ (t = token ∧ r' = r) ∨ Under s t r' := by
  set a := malloc.alloc s.records.dom with ha
  have hfresh : s.records.cell a = none := Store.cell_eq_none (malloc.fresh _)
  obtain ⟨w, k, hrun, hholds, hmem⟩ := insert_spec malloc (holds_start recordComparator) r
  rw [← slCreate_compareRecord] at hrun
  -- the new list of records is not that of another token
  have hne : ∀ x ∈ s.list.items, x.records ≠ a := by
    rintro x hx hxa
    obtain ⟨u, hu, -⟩ := h.records x hx
    rw [hxa, hfresh] at hu
    cases hu
  rcases h.list.insert (passes_pos _) (malloc.fresh s.list.nodes.dom) ⟨token, a⟩ with
    ⟨-, y, hy, heq⟩ | ⟨list, items, hinsert, hlist, hperm⟩
  · exact absurd (indexComparator_eq_zero.mp heq) (hnew y hy)
  · have hitems : ∀ x, x ∈ list.items ↔ x = ⟨token, a⟩ ∨ x ∈ s.list.items := by
      intro x
      rw [hlist.items, hperm.mem_iff, List.mem_cons]
    let records := (s.records.insert a (slCreate compareRecord .func)).insert a w
    have hself : records.cell a = some w := Store.insert_cell_self _ _ _
    have hother : ∀ b, b ≠ a → records.cell b = s.records.cell b := by
      intro b hb
      rw [Store.insert_cell_of_ne _ _ hb, Store.insert_cell_of_ne _ _ hb]
    refine ⟨⟨list, records⟩, ?_, ⟨hlist.items ▸ hlist, fun x hx => ?_, fun x hx y hy hxy => ?_⟩,
      fun t r' => ⟨?_, ?_⟩⟩
    · have hinsert' : indexerSLInsert s.list ⟨token, a⟩ (malloc.alloc s.list.nodes.dom)
          = some (list, 1) := hinsert
      simp [createIndex, insertRecord, ← ha, hrun, hinsert', records]
    · rcases (hitems x).mp hx with rfl | hx
      · refine ⟨w, hself, hholds, fun hnil => ?_⟩
        have hr := (hmem r).mpr (.inl rfl)
        rw [hnil] at hr
        cases hr
      · obtain ⟨u, hu, hu'⟩ := h.records x hx
        exact ⟨u, (hother _ (hne x hx)).trans hu, hu'⟩
    · rcases (hitems x).mp hx with rfl | hx <;> rcases (hitems y).mp hy with rfl | hy
      · rfl
      · exact absurd hxy.symm (hne y hy)
      · exact absurd hxy (hne x hx)
      · exact h.distinct x hx y hy hxy
    · rintro ⟨x, hx, rfl, u, hu, hr'⟩
      rcases (hitems x).mp hx with rfl | hx
      · obtain rfl := Option.some.inj (hu.symm.trans hself)
        exact .inl ⟨rfl, ((hmem r').mp hr').resolve_right List.not_mem_nil⟩
      · exact .inr ⟨x, hx, rfl, u, (hother _ (hne x hx)).symm.trans hu, hr'⟩
    · rintro (⟨rfl, rfl⟩ | ⟨x, hx, rfl, u, hu, hr'⟩)
      · exact ⟨⟨t, a⟩, (hitems _).mpr (.inl rfl), rfl, w, hself, (hmem r').mpr (.inl rfl)⟩
      · exact ⟨x, (hitems x).mpr (.inr hx), rfl, u, (hother _ (hne x hx)).trans hu, hr'⟩

/-- **One round of the loop of `index_file`** adds one record under one token. -/
theorem addRecord_spec (h : s.Valid) (path : CString) (e : Hashmap.MapT CString ℤ) :
    ∃ s', addRecord malloc path s e = some s' ∧ s'.Valid ∧
      ∀ t r, Under s' t r ↔ (t = e.key ∧ r = ⟨path, e.value⟩) ∨ Under s t r := by
  obtain ⟨w, hfind, hw⟩ := findIndex_spec malloc h.list e.key
  let s₁ : Indeces := { s with list := w }
  have hitems : s₁.list.items = s.list.items := hw.items
  have h₁ : s₁.Valid :=
    ⟨hitems ▸ hw, fun x hx => h.records x (hitems ▸ hx),
      fun x hx y hy => h.distinct x (hitems ▸ hx) y (hitems ▸ hy)⟩
  have hunder : ∀ t r, Under s₁ t r ↔ Under s t r := fun t r => by rw [Under, hitems, Under]
  rcases hfound : s.list.items.find? (hasToken e.key) with _ | x
  · have hnew : ∀ x ∈ s₁.list.items, x.token ≠ e.key := by
      intro x hx hxe
      have := List.find?_eq_none.mp hfound x (hitems ▸ hx)
      simp [hasToken, strcmp_eq_zero, hxe] at this
    obtain ⟨s', hrun, hvalid, hmem⟩ := createIndex_spec malloc h₁ hnew ⟨path, e.value⟩
    refine ⟨s', ?_, hvalid, fun t r => by rw [hmem, hunder]⟩
    rw [addRecord, hfind, hfound]
    exact hrun
  · have hx : x ∈ s₁.list.items := hitems ▸ List.mem_of_find?_eq_some hfound
    have hkey : x.token = e.key := by
      have := List.find?_some hfound
      simpa [hasToken, strcmp_eq_zero] using this
    obtain ⟨s', hrun, hvalid, hmem⟩ := insertRecord_spec malloc h₁ hx ⟨path, e.value⟩
    refine ⟨s', ?_, hvalid, fun t r => by rw [hmem, hunder, hkey]⟩
    rw [addRecord, hfind, hfound]
    exact hrun

/-! ### Adding a file -/

/-- **The loop of `index_file`** adds the records of the entries still to be visited. -/
theorem indexLoop_spec (hv : Hashmap.Valid hm) (hrem : Hashmap.Remaining hm hmi l)
    (hl : ∀ a ∈ l, a ∈ hm.addresses) (hn : l.length < n) (h : s.Valid) (path : CString) :
    ∃ s', indexLoop malloc path hm n hmi s = some s' ∧ s'.Valid ∧
      ∀ t r, Under s' t r ↔
        (∃ e ∈ l.filterMap hm.map, t = e.key ∧ r = ⟨path, e.value⟩) ∨ Under s t r := by
  induction n generalizing hmi l s with
  | zero => exact absurd hn (Nat.not_lt_zero _)
  | succ n ih =>
    obtain ⟨hmi', hnext, hrem'⟩ := Hashmap.hmiGetNext_spec hv hrem
    cases l with
    | nil => exact ⟨s, by simp [indexLoop, hnext], h, by simp⟩
    | cons a l =>
      obtain ⟨node, hnode⟩ := hv.exists_cell (hl a (by simp))
      have hmap : hm.map a = some node.map := by rw [Hashmap.HashmapT.map, hnode, Option.map_some]
      obtain ⟨s₁, hadd, h₁, hunder₁⟩ := addRecord_spec malloc h path node.map
      obtain ⟨s', hloop, hvalid, hunder⟩ :=
        ih hrem' (fun b hb => hl b (List.mem_cons_of_mem a hb)) (by simpa using hn) h₁
      refine ⟨s', by simp [indexLoop, hnext, hmap, hadd, hloop], hvalid, fun t r => ?_⟩
      rw [hunder, hunder₁, List.tail_cons, List.filterMap_cons_some hmap,
        List.exists_mem_cons_iff]
      exact or_left_comm.trans or_assoc.symm

/-- How often a word occurs in a file. -/
def occurrences (fs : FileSystem) (path t : CString) : ℕ := (words ((fs path).getD [])).count t

/-- The record of a word in a file. -/
def recordOf (fs : FileSystem) (offset path t : CString) : RecordT :=
  ⟨path.drop offset.length, occurrences fs path t⟩

/-- **What `index_file` adds**: the record of each word of the file. -/
def Indexed (fs : FileSystem) (offset path : CString) (s s' : Indeces) : Prop :=
  s'.Valid ∧ ∀ t r, Under s' t r ↔
    (0 < occurrences fs path t ∧ r = recordOf fs offset path t) ∨ Under s t r

/-- `index_file` from the counts of the file. -/
private theorem indexFile_of_counts (h : s.Valid) (hpath : offset.length ≤ path.length)
    (hfile : fs path = some text) (htokenize : tokenizeFile malloc fs path = some hm)
    (hcounts : Counts hm (words text)) :
    ∃ s', indexFile malloc fs offset s path = some s' ∧ Indexed fs offset path s s' := by
  obtain ⟨s', hloop, hvalid, hunder⟩ := indexLoop_spec malloc hcounts.valid
    (Hashmap.remaining_create hcounts.valid) (fun _ ha => ha)
    hcounts.valid.addresses_length_lt_fuel h (path.drop offset.length)
  refine ⟨s', by simp [indexFile, relativePath, hpath, htokenize, hloop], hvalid, fun t r => ?_⟩
  rw [hunder, recordOf, occurrences, hfile, Option.getD_some]
  refine or_congr_left ⟨?_, ?_⟩
  · rintro ⟨e, he, rfl, rfl⟩
    obtain ⟨hpos, hvalue⟩ := (hcounts.entries e).mp he
    exact ⟨hpos, by rw [hvalue]⟩
  · rintro ⟨hpos, rfl⟩
    exact ⟨⟨t, (words text).count t⟩, (hcounts.entries _).mpr ⟨hpos, rfl⟩, rfl, rfl⟩

/-- **`index_file`** adds the records of a file whose words have lists. -/
theorem indexFile_spec (h : s.Valid) (hpath : offset.length ≤ path.length)
    (hfile : fs path = some text) (hplaced : ∀ t ∈ words text, Placed t) :
    ∃ s', indexFile malloc fs offset s path = some s' ∧ Indexed fs offset path s s' := by
  rcases tokenizeFile_spec malloc hfile with ⟨hm, htokenize, hcounts⟩ | ⟨-, t, ht, hnot⟩
  · exact indexFile_of_counts malloc h hpath hfile htokenize hcounts
  · exact absurd (hplaced t ht) hnot

/-- Whatever file it is given, `index_file` adds its records if it returns. -/
private theorem indexFile_some (h : s.Valid) (hrun : indexFile malloc fs offset s path = some s') :
    Indexed fs offset path s s' := by
  have hrun' := hrun
  simp only [indexFile, Option.bind_eq_bind, Option.bind_eq_some_iff] at hrun'
  obtain ⟨relative, hrelative, hm, htokenize, -⟩ := hrun'
  have hpath : offset.length ≤ path.length := by
    by_contra hlt
    rw [relativePath, if_neg hlt] at hrelative
    cases hrelative
  have hfile : ∃ text, fs path = some text := by
    rw [tokenizeFile, Option.bind_eq_bind, Option.bind_eq_some_iff] at htokenize
    exact htokenize.imp fun _ => And.left
  obtain ⟨text, hfile⟩ := hfile
  rcases tokenizeFile_spec malloc hfile with ⟨hm', htokenize', hcounts⟩ | ⟨hnone, -⟩
  · obtain ⟨s₁, hrun₁, hindexed⟩ := indexFile_of_counts malloc h hpath hfile htokenize' hcounts
    obtain rfl := Option.some.inj (hrun.symm.trans hrun₁)
    exact hindexed
  · rw [hnone] at htokenize
    cases htokenize

/-- **What an index holds after a run** of `index_file` over some files: the records of the
words of each of them. -/
theorem indexFiles_some {paths : List CString} (hrun : indexFiles malloc fs offset paths = some s) :
    s.Valid ∧ ∀ t r, Under s t r ↔
      ∃ path ∈ paths, 0 < occurrences fs path t ∧ r = recordOf fs offset path t := by
  suffices hloop : ∀ (rest : List CString) (s₀ s : Indeces), s₀.Valid →
      rest.foldlM (indexFile malloc fs offset) s₀ = some s → s.Valid ∧
        ∀ t r, Under s t r ↔ Under s₀ t r ∨
          ∃ path ∈ rest, 0 < occurrences fs path t ∧ r = recordOf fs offset path t by
    obtain ⟨hvalid, hunder⟩ := hloop paths createIndeces s valid_createIndeces hrun
    exact ⟨hvalid, fun t r => by simp [hunder, not_under_createIndeces]⟩
  intro rest
  induction rest with
  | nil =>
    rintro s₀ s hs₀ hrun
    obtain rfl := Option.some.inj hrun
    exact ⟨hs₀, by simp⟩
  | cons path rest ih =>
    intro s₀ s hs₀ hrun
    rw [List.foldlM_cons, Option.bind_eq_bind, Option.bind_eq_some_iff] at hrun
    obtain ⟨s₁, hfile, hrest⟩ := hrun
    obtain ⟨hs₁, hunder₁⟩ := indexFile_some malloc hs₀ hfile
    obtain ⟨hs, hunder⟩ := ih s₁ s hs₁ hrest
    refine ⟨hs, fun t r => ?_⟩
    rw [hunder, hunder₁, List.exists_mem_cons_iff, or_assoc]
    exact or_left_comm

end Cs214.Indexer

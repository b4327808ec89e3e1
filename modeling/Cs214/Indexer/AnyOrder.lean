import Cs214.Indexer.Index
import Mathlib.Data.Finset.Lattice.Fold
import Mathlib.Data.List.Sort
import Mathlib.Order.Lattice.Nat

/-!
# The index does not depend on the order of the files

What an index holds is determined by which records are under which tokens, as all its lists are
strictly ordered (`contents_eq`), and what `write_to_file` writes is a function of what the index
holds (`writeToFile_spec`). The records under a token are those of the files it occurs in,
whatever the order of the calls of `index_file`, so all orders lead to the same index and the
same text (`indexFiles_any_order`).
-/

namespace Cs214.Indexer

open Tokenizer SortedList

variable (malloc : Allocator) {s s' : Indeces} {x y : IndexT} {xs ys : List IndexT} {i n : ℕ}
  {t path offset : CString} {r : RecordT} {rs us : List RecordT} {fs : FileSystem}
  {paths order : List CString} {index : List (CString × List RecordT)}

/-! ### What an index holds -/

/-- The entries of a valid index. -/
theorem Indeces.Valid.mem_contents (h : s.Valid) : (t, rs) ∈ s.contents ↔
    ∃ x ∈ s.list.items, x.token = t ∧ ∃ w, s.records.cell x.records = some w ∧ w.items = rs := by
  simp only [Indeces.contents, List.mem_map, Prod.mk.injEq]
  constructor
  · rintro ⟨x, hx, rfl, rfl⟩
    obtain ⟨w, hw, -⟩ := h.records x hx
    exact ⟨x, hx, rfl, w, hw, by rw [hw]; rfl⟩
  · rintro ⟨x, hx, rfl, w, hw, rfl⟩
    exact ⟨x, hx, rfl, by rw [hw]; rfl⟩

/-- The records of an entry are those under its token. -/
theorem Indeces.Valid.mem_iff_under (h : s.Valid) (hrs : (t, rs) ∈ s.contents) (r : RecordT) :
    r ∈ rs ↔ Under s t r := by
  obtain ⟨x, hx, rfl, w, hw, rfl⟩ := h.mem_contents.mp hrs
  constructor
  · exact fun hr => ⟨x, hx, rfl, w, hw, hr⟩
  · rintro ⟨y, hy, hyx, u, hu, hr⟩
    obtain rfl := h.eq_of_token hy hx hyx
    obtain rfl := Option.some.inj (hu.symm.trans hw)
    exact hr

/-- A token with a record has an entry. -/
private theorem Under.exists_entry (h : Under s t r) (hs : s.Valid) :
    ∃ rs, (t, rs) ∈ s.contents := by
  obtain ⟨x, hx, rfl, w, hw, -⟩ := h
  exact ⟨w.items, hs.mem_contents.mpr ⟨x, hx, rfl, w, hw, rfl⟩⟩

/-- **The tokens ascend.** -/
theorem Indeces.Valid.tokens_pairwise (h : s.Valid) :
    s.contents.Pairwise fun e e' => strcmp e.1 e'.1 < 0 := by
  rw [Indeces.contents, List.pairwise_map]
  exact h.list.pairwise.imp indexComparator_gt.mp

/-- **The records of a token** descend in their counts, and ascend in their paths. -/
theorem Indeces.Valid.records_pairwise (h : s.Valid) (hrs : (t, rs) ∈ s.contents) :
    rs.Pairwise recordComparator.gt ∧ rs ≠ [] := by
  obtain ⟨x, hx, rfl, w, hw, rfl⟩ := h.mem_contents.mp hrs
  obtain ⟨u, hu, hholds, hne⟩ := h.records x hx
  obtain rfl := Option.some.inj (hw.symm.trans hu)
  exact ⟨hholds.pairwise, hne⟩

instance : Std.Irrefl fun e e' : CString × List RecordT => strcmp e.1 e'.1 < 0 where
  irrefl e h := by
    rw [strcmp_eq_zero.mpr rfl] at h
    omega

instance : Std.Antisymm fun e e' : CString × List RecordT => strcmp e.1 e'.1 < 0 where
  antisymm e e' h h' := by
    have := strcmp_swap e.1 e'.1
    omega

instance : Std.Antisymm recordComparator.gt where
  antisymm _ _ h h' := absurd (trans_of recordComparator.gt h h') (irrefl_of recordComparator.gt _)

/-- **An index is determined** by the records under its tokens. -/
theorem contents_eq (h : s.Valid) (h' : s'.Valid) (hunder : ∀ t r, Under s t r ↔ Under s' t r) :
    s.contents = s'.contents := by
  have hsub : ∀ {s s' : Indeces}, s.Valid → s'.Valid → (∀ t r, Under s t r ↔ Under s' t r) →
      ∀ e ∈ s.contents, e ∈ s'.contents := by
    rintro s s' h h' hunder ⟨t, rs⟩ hrs
    obtain ⟨hpw, hne⟩ := h.records_pairwise hrs
    obtain ⟨r, hr⟩ := List.exists_mem_of_ne_nil rs hne
    obtain ⟨us, hus⟩ := ((hunder t r).mp ((h.mem_iff_under hrs r).mp hr)).exists_entry h'
    have heq : rs = us := hpw.eq_of_mem_iff (h'.records_pairwise hus).1 fun r => by
      rw [h.mem_iff_under hrs, h'.mem_iff_under hus, hunder]
    exact heq ▸ hus
  exact h.tokens_pairwise.eq_of_mem_iff h'.tokens_pairwise fun e =>
    ⟨hsub h h' hunder e, hsub h' h (fun t r => (hunder t r).symm) e⟩

/-! ### Writing an index -/

/-- The text of some records. -/
def recordsText : List RecordT → CString
  | [] => []
  | r :: rs => recordLine r ++ separator rs.head?.isSome ++ recordsText rs

/-- The text of a token with its records. -/
def entryText (t : CString) (rs : List RecordT) : CString :=
  "\t\x7b\"".toList ++ t ++ "\" : [\n".toList ++ recordsText rs ++ "\t]\x7d".toList

/-- The text of some tokens with their records. -/
def indecesText : List (CString × List RecordT) → CString
  | [] => []
  | (t, rs) :: index => entryText t rs ++ separator index.head?.isSome ++ indecesText index

/-- **The text of an index.** -/
def indexText (index : List (CString × List RecordT)) : CString :=
  "\x7b\"list\" : [\n".toList ++ indecesText index ++ "]\x7d\n".toList

/-- The loop over the records writes the records ahead. -/
private theorem writeRecords_spec {w : World RecordT} (file : CString)
    (h : Reading recordComparator w i rs us) (hn : us.length < n) :
    ∃ w', writeRecords i n w us.head? file = some (w', file ++ recordsText us) ∧
      Reading recordComparator w' i (rs ++ us) [] := by
  induction n generalizing w rs us file with
  | zero => exact absurd hn (Nat.not_lt_zero _)
  | succ n ih =>
    cases us with
    | nil => exact ⟨w, by simp [writeRecords, recordsText], by simpa using h⟩
    | cons r us =>
      obtain ⟨w₁, hnext, h₁⟩ := h.nextItem
      obtain ⟨w', hloop, h'⟩ :=
        ih (file ++ recordLine r ++ separator us.head?.isSome) h₁ (by simpa using hn)
      refine ⟨w', ?_, by simpa using h'⟩
      simp only [writeRecords, List.head?_cons, hnext, Option.bind_eq_bind, Option.bind_some]
      rw [hloop, recordsText]
      simp only [List.append_assoc]

/-- The lists of records at the addresses of some items, `R a` at the address `a`. -/
def Recorded (s : Indeces) (R : ℕ → List RecordT) (xs : List IndexT) : Prop :=
  ∀ x ∈ xs, ∃ w, s.records.cell x.records = some w ∧ Holds recordComparator w (R x.records)

/-- Writing a token leaves its records as they are. -/
private theorem writeIndex_spec {R : ℕ → List RecordT} (file : CString) (h : Recorded s R xs)
    (hx : x ∈ xs) :
    ∃ records, writeIndex malloc s x file = some ({ s with records := records },
        file ++ entryText x.token (R x.records)) ∧ Recorded { s with records := records } R xs := by
  obtain ⟨w, hw, hholds⟩ := h x hx
  obtain ⟨w₁, hcreate, h₁⟩ := hholds.createIterator (malloc.fresh w.iterators.dom)
  obtain ⟨w₂, hloop, h₂⟩ := writeRecords_spec
    (file ++ "\t\x7b\"".toList ++ x.token ++ "\" : [\n".toList) h₁ h₁.holds.length_lt_fuel
  obtain ⟨w₃, hdestroy, h₃⟩ := h₂.destroyIterator
  refine ⟨s.records.insert x.records w₃, ?_, fun y hy => ?_⟩
  · simp only [writeIndex, hw, hcreate, h₁.getItem, hloop, hdestroy, Option.bind_eq_bind,
      Option.bind_some]
    simp only [entryText, List.append_assoc]
  · by_cases hyx : y.records = x.records
    · refine ⟨w₃, by rw [hyx, Store.insert_cell_self], ?_⟩
      simpa [hyx] using h₃
    · obtain ⟨u, hu, hu'⟩ := h y hy
      exact ⟨u, by rw [Store.insert_cell_of_ne _ _ hyx, hu], hu'⟩

/-- The loop over the tokens writes the tokens ahead. -/
private theorem writeIndeces_spec {R : ℕ → List RecordT} (file : CString)
    (h : Reading indexComparator s.list i xs ys) (hR : Recorded s R ys) (hn : ys.length < n) :
    ∃ s', writeIndeces malloc i n s ys.head? file =
        some (s', file ++ indecesText (ys.map fun x => (x.token, R x.records))) ∧
      Reading indexComparator s'.list i (xs ++ ys) [] := by
  induction n generalizing s xs ys file with
  | zero => exact absurd hn (Nat.not_lt_zero _)
  | succ n ih =>
    cases ys with
    | nil => exact ⟨s, by simp [writeIndeces, indecesText], by simpa using h⟩
    | cons x ys =>
      obtain ⟨records, hwrite, hR₁⟩ := writeIndex_spec malloc file hR (List.mem_cons_self ..)
      obtain ⟨list, hnext, h₁⟩ := h.nextItem
      obtain ⟨s', hloop, h'⟩ := ih
        (file ++ entryText x.token (R x.records) ++ separator ys.head?.isSome)
        (show Reading indexComparator (⟨list, records⟩ : Indeces).list i _ _ from h₁)
        (fun y hy => hR₁ y (List.mem_cons_of_mem x hy)) (by simpa using hn)
      refine ⟨s', ?_, by simpa using h'⟩
      simp only [writeIndeces, List.head?_cons, hwrite, hnext, Option.bind_eq_bind,
        Option.bind_some]
      rw [hloop, List.map_cons, indecesText, List.head?_map, Option.isSome_map]
      simp only [List.append_assoc]

/-- **`write_to_file`** writes the text of what the index holds. -/
theorem writeToFile_spec (h : s.Valid) :
    ∃ s', writeToFile malloc s = some (s', indexText s.contents) := by
  obtain ⟨w₁, hcreate, h₁⟩ := h.list.createIterator (malloc.fresh s.list.iterators.dom)
  let R : ℕ → List RecordT := fun a => ((s.records.cell a).map World.items).getD []
  have hR : Recorded { s with list := w₁ } R s.list.items := by
    intro x hx
    obtain ⟨w, hw, hholds, -⟩ := h.records x hx
    exact ⟨w, hw, by simpa [R, hw] using hholds⟩
  obtain ⟨s₂, hloop, h₂⟩ := writeIndeces_spec malloc "\x7b\"list\" : [\n".toList
    (show Reading indexComparator ({ s with list := w₁ } : Indeces).list _ _ _ from h₁) hR
    h₁.holds.length_lt_fuel
  obtain ⟨w₃, hdestroy, -⟩ := h₂.destroyIterator
  refine ⟨{ s₂ with list := w₃ }, ?_⟩
  simp only [writeToFile, hcreate, h₁.getItem, hloop, hdestroy, Option.bind_eq_bind,
    Option.bind_some]
  rfl

/-! ### Indexing files in any order -/

/-- What `index_file` presumes of the paths: they start with the offset path, they are regular
files, and the sum of the characters of a word fits in an `int`. -/
structure Indexable (fs : FileSystem) (offset : CString) (paths : List CString) : Prop where
  offset : ∀ path ∈ paths, offset.length ≤ path.length
  regular : ∀ path ∈ paths, (fs path).isSome
  hash : ∀ path ∈ paths, ∀ t ∈ words ((fs path).getD []), charSum t < 2 ^ 31

/-- **The records of all files.** -/
theorem indexFiles_spec (h : Indexable fs offset paths) :
    ∃ s, indexFiles malloc fs offset paths = some s ∧ s.Valid ∧ ∀ t r, Under s t r ↔
      ∃ path ∈ paths, 0 < occurrences fs path t ∧ r = recordOf fs offset path t := by
  have hrun : ∀ (rest : List CString) (s : Indeces), (∀ path ∈ rest, path ∈ paths) → s.Valid →
      ∃ s', rest.foldlM (indexFile malloc fs offset) s = some s' := by
    intro rest
    induction rest with
    | nil => exact fun s _ _ => ⟨s, rfl⟩
    | cons path rest ih =>
      intro s hsub hs
      have hpath := hsub path (by simp)
      obtain ⟨text, htext⟩ := Option.isSome_iff_exists.mp (h.regular path hpath)
      have hplaced : ∀ t ∈ words text, Placed t := fun t ht =>
        placed_of_charSum ht (h.hash path hpath t (by rwa [htext]))
      obtain ⟨s₁, hfile, hs₁, -⟩ := indexFile_spec malloc hs (h.offset path hpath) htext hplaced
      obtain ⟨s', hrest⟩ := ih s₁ (fun p hp => hsub p (List.mem_cons_of_mem _ hp)) hs₁
      exact ⟨s', by simp [List.foldlM_cons, hfile, hrest]⟩
  obtain ⟨s, hs⟩ := hrun paths createIndeces (fun _ hp => hp) valid_createIndeces
  exact ⟨s, hs, indexFiles_some malloc hs⟩

/-- **The index of some files**: the tokens ascend and are those that occur; the records of a
token are in order, there is exactly one for each file in which it occurs, with the number of
its occurrences, and no other one. -/
structure IsIndexOf (fs : FileSystem) (offset : CString) (paths : List CString)
    (index : List (CString × List RecordT)) : Prop where
  ascending : (index.map Prod.fst).Pairwise fun t u => strcmp t u < 0
  token : ∀ t, t ∈ index.map Prod.fst ↔ ∃ path ∈ paths, 0 < occurrences fs path t
  ordered : ∀ t rs, (t, rs) ∈ index → rs.Pairwise RecordT.Before
  record : ∀ t rs, (t, rs) ∈ index → ∀ path ∈ paths, 0 < occurrences fs path t →
    rs.filter (fun r => r.file = path.drop offset.length) = [recordOf fs offset path t]
  no_other : ∀ t rs, (t, rs) ∈ index → ∀ r ∈ rs, ∃ path ∈ paths,
    0 < occurrences fs path t ∧ r = recordOf fs offset path t

theorem Indeces.Valid.isIndexOf (h : s.Valid)
    (hdistinct : (paths.map fun path => path.drop offset.length).Nodup)
    (hunder : ∀ t r, Under s t r ↔
      ∃ path ∈ paths, 0 < occurrences fs path t ∧ r = recordOf fs offset path t) :
    IsIndexOf fs offset paths s.contents where
  ascending := List.pairwise_map.mpr h.tokens_pairwise
  token t := by
    simp only [List.mem_map, Prod.exists, exists_and_right, exists_eq_right]
    constructor
    · rintro ⟨rs, hrs⟩
      obtain ⟨r, hr⟩ := List.exists_mem_of_ne_nil rs (h.records_pairwise hrs).2
      obtain ⟨path, hpath, hpos, -⟩ := (hunder t r).mp ((h.mem_iff_under hrs r).mp hr)
      exact ⟨path, hpath, hpos⟩
    · rintro ⟨path, hpath, hpos⟩
      exact ((hunder t _).mpr ⟨path, hpath, hpos, rfl⟩).exists_entry h
  ordered t rs hrs := (h.records_pairwise hrs).1.imp recordComparator_gt.mp
  record t rs hrs path hpath hpos := by
    have hpw := (h.records_pairwise hrs).1
    refine (hpw.filter _).eq_of_mem_iff (List.pairwise_singleton _ _) fun r => ?_
    rw [List.mem_filter, h.mem_iff_under hrs, hunder, decide_eq_true_eq, List.mem_singleton]
    constructor
    · rintro ⟨⟨path', hpath', -, rfl⟩, hfile⟩
      rw [List.inj_on_of_nodup_map hdistinct hpath' hpath hfile]
    · rintro rfl
      exact ⟨⟨path, hpath, hpos, rfl⟩, rfl⟩
  no_other t rs hrs r hr := (hunder t r).mp ((h.mem_iff_under hrs r).mp hr)

theorem Indexable.perm (h : Indexable fs offset paths) (horder : order.Perm paths) :
    Indexable fs offset order where
  offset path hpath := h.offset path (horder.mem_iff.mp hpath)
  regular path hpath := h.regular path (horder.mem_iff.mp hpath)
  hash path hpath := h.hash path (horder.mem_iff.mp hpath)

/-- **Another order and another allocator** lead to the same index and to the same text. -/
theorem indexFiles_perm {malloc₀ : Allocator} {s₀ : Indeces} (h : Indexable fs offset paths)
    (horder : order.Perm paths) (hrun₀ : indexFiles malloc₀ fs offset paths = some s₀) :
    ∃ s s', indexFiles malloc fs offset order = some s ∧ s.contents = s₀.contents ∧
      writeToFile malloc s = some (s', indexText s₀.contents) := by
  obtain ⟨s₁, hrun₁, hs₀, hunder₀⟩ := indexFiles_spec malloc₀ h
  obtain rfl := Option.some.inj (hrun₁.symm.trans hrun₀)
  obtain ⟨s, hrun, hs, hunder⟩ := indexFiles_spec malloc (h.perm horder)
  have heq : s.contents = s₁.contents := contents_eq hs hs₀ fun t r => by
    rw [hunder, hunder₀]
    simp only [horder.mem_iff]
  obtain ⟨s', hwrite⟩ := writeToFile_spec malloc hs
  exact ⟨s, s', hrun, heq, heq ▸ hwrite⟩

/-- An allocator that takes the address behind all addresses in use. -/
def nextFree : Allocator where
  alloc used := used.sup id + 1
  fresh _ hmem := absurd (Finset.le_sup (f := id) hmem) (Nat.not_succ_le_self _)

/-- **The index and its text do not depend on the order of the files.** -/
theorem indexFiles_any_order (fs : FileSystem) (offset : CString) (paths : List CString)
    (h : Indexable fs offset paths)
    (hdistinct : (paths.map fun path => path.drop offset.length).Nodup) :
    ∃ index, IsIndexOf fs offset paths index ∧ ∀ (malloc : Allocator) (order : List CString),
      order.Perm paths → ∃ s s', indexFiles malloc fs offset order = some s ∧
        s.contents = index ∧ writeToFile malloc s = some (s', indexText index) := by
  obtain ⟨s₀, hrun₀, hs₀, hunder₀⟩ := indexFiles_spec nextFree h
  exact ⟨s₀.contents, hs₀.isIndexOf hdistinct hunder₀,
    fun malloc order horder => indexFiles_perm malloc h horder hrun₀⟩

/-- Two files. -/
def twoFiles : FileSystem := fun path =>
  if path = "d/a".toList then some "The cat, the dog".toList
  else if path = "d/b".toList then some "cat /* the */ Cat 0x1 dog_1".toList
  else none

/-- The records of `cat` in the index of two files, indexed in the other order. -/
theorem indexFiles_any_order_twoFiles :
    ∃ s rs, indexFiles nextFree twoFiles "d/".toList ["d/b".toList, "d/a".toList] = some s ∧
      ("cat".toList, rs) ∈ s.contents ∧ rs.Pairwise RecordT.Before ∧
      rs.filter (fun r => r.file = "a".toList) = [⟨"a".toList, 1⟩] ∧
      rs.filter (fun r => r.file = "b".toList) = [⟨"b".toList, 2⟩] := by
  obtain ⟨index, hindex, hall⟩ := indexFiles_any_order twoFiles "d/".toList
    ["d/a".toList, "d/b".toList] ⟨by decide +kernel, by decide +kernel, by decide +kernel⟩
    (by decide +kernel)
  obtain ⟨s, -, hrun, rfl, -⟩ := hall nextFree _ (.swap _ _ _)
  obtain ⟨⟨t, rs⟩, hrs, htoken⟩ := List.mem_map.mp
    ((hindex.token "cat".toList).mpr ⟨"d/a".toList, by simp, by decide +kernel⟩)
  obtain rfl : t = "cat".toList := htoken
  refine ⟨s, rs, hrun, hrs, hindex.ordered _ rs hrs, ?_, ?_⟩
  · exact (hindex.record _ rs hrs "d/a".toList (by simp) (by decide +kernel)).trans
      (by decide +kernel)
  · exact (hindex.record _ rs hrs "d/b".toList (by simp) (by decide +kernel)).trans
      (by decide +kernel)

end Cs214.Indexer

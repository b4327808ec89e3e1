import Cs214.SortedList.Ownership
import Cs214.SortedList.Traversal

/-!
# What `SLNextItem` answers

`SLNextItem` has two branches. When the iterator holds the only reference to its node, the
node is destroyed through `nodeDestroy`, which also passes over the removed nodes behind it,
as long as each has a single reference. When the node has further references, the iterator
just moves to the next node, removed or not; and the first branch too stops at a removed node
that another iterator or another chain of removed nodes refers to. So an iterator can come to
rest on a removed node and answer its item.

`SkipsRemoved w i` is the exact condition under which this does not happen
(`Advances.listed_iff`): at most one node on the chain of the iterator has been removed, or
all removed nodes on it have one reference. A single iterator always meets it
(`skipsRemoved_of_single`). It then comes to rest on the first listed node of its chain,
which is the node of the next smaller listed item exactly when all smaller listed items are
on the chain: an item inserted in front of the chain of a removed node is missed.
-/

namespace Cs214.SortedList

variable {α : Type} {c : Comparator α} {w w' : World α} {out : Answer α} {a b d i m : ℕ}
  {p q : Option ℕ}
  {node : Node α} {it : SortedListIterator} {l freed : List ℕ} {x y z : α}
  {tr : List (ListEvent α)} {e : ListEvent α}

/-- The removed nodes on the chain from `p`. -/
def removedAhead (w : World α) (p : Option ℕ) : List ℕ :=
  (w.nodes.trail Node.next p).filter (· ∉ w.linked)

/-- **The condition**: on the chain from iterator `i` at most one node has been removed, or
each removed node has one reference. -/
def SkipsRemoved (w : World α) (i : ℕ) : Prop :=
  ∀ it, w.iterators.cell i = some it →
    (removedAhead w it.current).length ≤ 1 ∨
      ∀ a ∈ removedAhead w it.current, ∀ node, w.nodes.cell a = some node → node.ptrCount = 1

namespace Valid

/-- What is reached from a listed node is listed. -/
private theorem mem_linked_of_reaches (h : Valid c w) (ha : a ∈ w.linked)
    (hr : Reaches w (some a) b) :
    b ∈ w.linked :=
  h.mem_linked_iff.mpr ((h.mem_linked_iff.mp ha).trans hr)

/-- The removed nodes on a chain. -/
private theorem mem_removedAhead (h : Valid c w)
    (hp : ∀ a, p = some a → ∃ n, w.nodes.cell a = some n) :
    b ∈ removedAhead w p ↔ b ∉ w.linked ∧ Reaches w p b := by
  have hpath := h.counted.descends.path_trail hp
  rw [removedAhead, List.mem_filter, decide_eq_true_eq, and_comm]
  refine and_congr_right fun _ => ⟨fun hb => ?_, fun hr => ?_⟩
  · obtain ⟨l₁, l₂, hl⟩ := List.append_of_mem hb
    exact ⟨l₁, (hl ▸ hpath).split_at.1⟩
  · obtain ⟨l, hl⟩ := hr
    obtain ⟨n, hn⟩ := h.counted.descends.exists_cell_of_path hl hp
    obtain ⟨k, hk⟩ := h.counted.descends.exists_chain hn
    rw [h.counted.descends.trail_eq (hl.append hk)]
    cases k with
    | nil => cases Store.Path.nil_iff.mp hk
    | cons b' k =>
      obtain ⟨hb, -⟩ := Store.Path.cons_iff.mp hk
      rw [Option.some.inj hb]
      simp

/-- An item tells its listed node. -/
private theorem linked_inj (h : Valid c w) (ha : a ∈ w.linked) (hb : b ∈ w.linked)
    (hx : w.item a = some x) (hx' : w.item b = some x) : a = b := by
  have hpw := h.counted.descends.pairwise_of_path h.path_linked
  have hne : ∀ {u v : ℕ}, (∀ m n, w.nodes.cell u = some m → w.nodes.cell v = some n →
      Node.gt c m n) → w.item u = some x → w.item v = some x → False := by
    intro u v huv hu hv
    obtain ⟨m, hm, rfl⟩ := World.item_eq_some.mp hu
    obtain ⟨n, hn, hnm⟩ := World.item_eq_some.mp hv
    have hgt : c.gt m.data n.data := huv m n hm hn
    rw [hnm] at hgt
    exact irrefl_of c.gt m.data hgt
  refine List.Pairwise.forall_of_forall_of_flip
    (R := fun u v => w.item u = some x → w.item v = some x → u = v)
    (fun u _ _ _ => rfl) ?_ ?_ ha hb hx hx'
  · exact hpw.imp fun huv hu hv => (hne huv hu hv).elim
  · exact hpw.imp fun huv hu hv => (hne huv hv hu).elim

end Valid

/-! ### Where an advancing iterator comes to rest -/

/-- An advancing iterator comes to rest strictly behind the node it leaves. -/
private theorem Advances.reaches (h : Advances w a node q freed) (ha : w.nodes.cell a = some node)
    (hq : q = some d) : Reaches w node.next d := by
  obtain ⟨l, hpath, -⟩ := h.path ha
  obtain ⟨-, v, hv, hpath⟩ := Store.Path.cons_iff.mp hpath
  obtain rfl := Option.some.inj (ha.symm.trans hv)
  exact ⟨l, hq ▸ hpath⟩

/-- **The condition is exact**: an advancing iterator comes to rest on a listed node, or at
the end, if and only if it skips removed nodes. -/
theorem Advances.listed_iff (h : Advances w a node q freed) (hv : Valid c w)
    (hi : w.iterators.cell i = some it) (hcur : it.current = some a)
    (ha : w.nodes.cell a = some node) :
    (∀ d, q = some d → d ∈ w.linked) ↔ SkipsRemoved w i := by
  have hstart : ∀ d, it.current = some d → ∃ n, w.nodes.cell d = some n :=
    fun d hd => hv.exists_current hi hd
  have hmem : ∀ b, b ∈ removedAhead w it.current ↔ b ∉ w.linked ∧ Reaches w (some a) b :=
    fun b => hcur ▸ hv.mem_removedAhead hstart
  constructor
  · intro hq jt hj
    obtain rfl := Option.some.inj (hi.symm.trans hj)
    -- behind `q` everything is listed, so the removed nodes are on the way to `q`
    have hway : ∀ {l : List ℕ}, w.nodes.Path Node.next q (some a) l →
        ∀ b ∈ removedAhead w it.current, b ∈ l := by
      intro l hl b hb
      obtain ⟨hb, hr⟩ := (hmem b).mp hb
      by_contra hbl
      have hqb := hr.of_path hl hbl
      rcases q with _ | d
      · exact Reaches.not_none b hqb
      · exact hb (hv.mem_linked_of_reaches (hq d rfl) hqb)
    rcases h with ⟨-, rfl, -⟩ | ⟨-, hpath, hlast, -⟩
    · refine .inl ?_
      have hnd : (removedAhead w it.current).Nodup :=
        (hv.counted.descends.nodup_of_path (hv.counted.descends.path_trail hstart)).filter _
      exact (hnd.subperm fun b hb => hway (.cons ha .nil) b hb).length_le
    · exact .inr fun b hb n hn => hlast b (hway hpath b hb) n hn
  · intro hskip d hq
    by_contra hd
    have hr := h.reaches ha hq
    have hda : d ≠ a := by
      rintro rfl
      exact irrefl_of c.gt _ (hv.gt_of_reaches ha hr ha)
    have hra : a ∈ removedAhead w it.current :=
      (hmem a).mpr ⟨fun hal => hd (hv.mem_linked_of_reaches hal (.head ha hr)), .refl w a⟩
    have hrd : d ∈ removedAhead w it.current := (hmem d).mpr ⟨hd, .head ha hr⟩
    -- `a` and `d` are both removed, which neither alternative allows
    rcases hskip it hi with hlen | hone
    · obtain ⟨k, hk⟩ := List.length_eq_one_iff.mp
        (le_antisymm hlen (List.length_pos_of_mem hra))
      rw [hk, List.mem_singleton] at hra hrd
      exact hda (hrd.trans hra.symm)
    · rcases h with ⟨hne, -⟩ | ⟨-, -, -, hstop⟩
      · exact hne (hone a hra node ha)
      · obtain ⟨n, hn⟩ := hv.exists_of_reaches ⟨node, ha⟩ (.head ha hr)
        exact hstop d n hq hn (hone d hrd n hn)

/-- What `SLNextItem` does when the iterator is at the end. -/
private theorem Effect.nextItem_at_end (h : Effect c w (.nextItem i) out w')
    (hi : w.iterators.cell i = some it) (hcur : it.current = none) : out = .item none := by
  cases h with
  | nextItemEnd => rfl
  | nextItem hj hcur' =>
    obtain rfl := Option.some.inj (hi.symm.trans hj)
    simp [hcur] at hcur'

/-- What `SLNextItem` does when the iterator rests on a node. -/
private theorem Effect.nextItem_of_current (h : Effect c w (.nextItem i) out w') (hv : Valid c w)
    (hi : w.iterators.cell i = some it) (hcur : it.current = some a)
    (ha : w.nodes.cell a = some node) :
    ∃ q freed, out = .item (q.bind w.item) ∧ Advances w a node q freed ∧
      ∀ d ∈ freed, d ∉ w.linked := by
  cases h with
  | nextItemEnd hj hnone =>
    obtain rfl := Option.some.inj (hi.symm.trans hj)
    simp [hcur] at hnone
  | nextItem hj hcur' ha' hset _ hadv =>
    obtain rfl := Option.some.inj (hi.symm.trans hj)
    obtain rfl := Option.some.inj (hcur.symm.trans hcur')
    obtain rfl := Option.some.inj (ha.symm.trans ha')
    exact ⟨_, _, rfl, hadv, hset.not_listed hv⟩

/-- **Removed items.** In every run, a call of `SLNextItem` on an iterator that skips removed
nodes answers null or an item that is listed at the call, and null when the list has been
destroyed. When no item is offered twice, the condition is also necessary. -/
theorem nextItem_listed (h : Run (machine α) (start c) tr w) (he : e ∈ tr)
    (hop : e.op = .nextItem i) :
    (SkipsRemoved e.pre i → ∀ x, e.out = .item (some x) → x ∈ e.pre.items) ∧
    (SkipsRemoved e.pre i → e.pre.list = none → e.out = .item none) ∧
    ((offered tr).Nodup → (∀ x, e.out = .item (some x) → x ∈ e.pre.items) →
      SkipsRemoved e.pre i) := by
  obtain ⟨hv, heff⟩ := effect_of_mem h he
  rw [hop] at heff
  have hlegal : i ∈ e.pre.iterators.dom := by
    have hocc := (h.occurs_of_mem he).2
    have hl : legal e.pre e.op := hocc.legal
    rwa [hop] at hl
  obtain ⟨it, hi⟩ := exists_iterator hlegal
  rcases hcur : it.current with _ | a
  · -- at the end the iterator has nothing ahead and answers null
    have hout : e.out = .item none := heff.nextItem_at_end hi hcur
    refine ⟨fun _ x hx => ?_, fun _ _ => hout, fun _ _ jt hj => ?_⟩
    · rw [hout] at hx
      cases hx
    · obtain rfl := Option.some.inj (hi.symm.trans hj)
      refine .inl ?_
      rw [hcur, removedAhead, Store.trail]
      cases e.pre.nodes.dom.card <;> simp [Store.follow]
  · obtain ⟨node, ha⟩ := hv.exists_current hi hcur
    obtain ⟨q, freed, hout, hadv, -⟩ := heff.nextItem_of_current hv hi hcur ha
    have hiff := hadv.listed_iff hv hi hcur ha
    have hlisted : SkipsRemoved e.pre i → ∀ x, e.out = .item (some x) → x ∈ e.pre.items := by
      intro hskip x hx
      rw [hout, Answer.item.injEq, Option.bind_eq_some_iff] at hx
      obtain ⟨d, hd, hx⟩ := hx
      exact Valid.mem_items.mpr ⟨d, hiff.mpr hskip d hd, hx⟩
    refine ⟨hlisted, fun hskip hnone => ?_, fun hoff hall => hiff.mp fun d hd => ?_⟩
    · rcases q with _ | d
      · exact hout
      · have hmem := hiff.mpr hskip d rfl
        simp [Valid.linked_eq_nil_of_no_list hnone] at hmem
    · -- the listed node of the answered item is the node the iterator came to rest on
      obtain ⟨n, hn⟩ := hv.exists_of_reaches ⟨node, ha⟩ (.head ha (hadv.reaches ha hd))
      have hx : e.pre.item d = some n.data := by simp [World.item, hn]
      obtain ⟨b, hb, hbx⟩ := Valid.mem_items.mp (hall n.data (by rw [hout, hd]; simp [hx]))
      obtain ⟨tr₁, tr₂, rfl, h₁, -, -⟩ := h.split_of_mem he
      have hL : Ledger tr₁ e.pre :=
        ledger_of_run h₁ (hoff.sublist ((List.sublist_append_left tr₁ _).filterMap offers))
      obtain rfl := hL.owner b d _ hbx hx
      exact hb

/-- The call of `SLNextItem` in the closed session: the iterator rests on the removed node of
`3`. -/
def advance : ListEvent ℤ := closedRun.1.get ⟨5, by decide +kernel⟩

/-- The iterator of the closed session skips the removed node. -/
theorem nextItem_listed_closedSession :
    advance.op = .nextItem 0 ∧ advance.out = .item (some 2) ∧ SkipsRemoved advance.pre 0 ∧
      ∀ x, advance.out = .item (some x) → x ∈ advance.pre.items := by
  have hcase := nextItem_listed run_closedSession (List.get_mem _ _ : advance ∈ closedRun.1)
    (i := 0) rfl
  have hlisted : ∀ x, advance.out = .item (some x) → x ∈ advance.pre.items := by
    intro x hx
    obtain rfl : 2 = x := Option.some.inj (Answer.item.inj hx)
    decide +kernel
  exact ⟨rfl, by decide +kernel, hcase.2.2 (by decide +kernel) hlisted, hlisted⟩

/-- Two iterators on a list of two items, which is destroyed under them. -/
def twoIterators : List (Op ℤ) :=
  [.insert 1 0, .insert 2 1, .createIterator 0, .createIterator 1, .destroy, .nextItem 0]

private theorem exec_twoIterators : ((machine ℤ).exec (start compareInt) twoIterators).isSome := by
  decide +kernel

/-- The other iterator keeps the removed nodes: the first one answers `1` although the list
is gone. -/
theorem nextItem_answers_removed :
    ∃ tr w, Run (machine ℤ) (start compareInt) tr w ∧ ∃ e ∈ tr, e.op = .nextItem 0 ∧
      e.pre.list = none ∧ e.out = .item (some 1) ∧ (1 : ℤ) ∉ e.pre.items :=
  ⟨_, _, Machine.run_get exec_twoIterators, _, List.getLast_mem (by decide +kernel), rfl, rfl,
    by decide +kernel, by decide +kernel⟩

/-! ### A single iterator -/

/-- Two nodes on one chain are connected. -/
private theorem Reaches.total (h : Reaches w p a) (h' : Reaches w p b) :
    Reaches w (some a) b ∨ Reaches w (some b) a := by
  obtain ⟨l, hl⟩ := h
  induction l generalizing p with
  | nil =>
    obtain rfl := Store.Path.nil_iff.mp hl
    exact .inl h'
  | cons d l ih =>
    obtain ⟨rfl, node, hd, ht⟩ := Store.Path.cons_iff.mp hl
    rcases h'.cases_head with hdb | ⟨d', node', hdd, hd', hr⟩
    · obtain rfl := Option.some.inj hdb
      exact .inr ⟨_, hl⟩
    · obtain rfl := Option.some.inj hdd
      obtain rfl := Option.some.inj (hd.symm.trans hd')
      exact ih hr ht

/-- The nodes that link to one node are not connected with each other. -/
private theorem Valid.eq_of_next_eq (hv : Valid c w) {n n' : Node α} {m' : ℕ}
    (hm : w.nodes.cell m = some n) (hm' : w.nodes.cell m' = some n') (hn : n.next = some d)
    (hn' : n'.next = some d) (hr : Reaches w (some m) m') : m = m' := by
  rcases hr.cases_head with hmm | ⟨u, v, hu, huv, hr⟩
  · exact Option.some.inj hmm
  · obtain rfl := Option.some.inj hu
    obtain rfl := Option.some.inj (hm.symm.trans huv)
    rw [hn] at hr
    -- otherwise `m'` is behind `d`, which is behind `m'`
    obtain ⟨k, hk, hgt⟩ := hv.exists_next hm' hn'
    rcases hr.cases_head with hdm | ⟨u, v, hu, huv, hr⟩
    · obtain rfl := Option.some.inj hdm
      obtain rfl := Option.some.inj (hm'.symm.trans hk)
      exact absurd hgt (irrefl_of c.gt _)
    · obtain rfl := Option.some.inj hu
      obtain rfl := Option.some.inj (hk.symm.trans huv)
      exact absurd (trans_of c.gt hgt (hv.gt_of_reaches hk hr hm')) (irrefl_of c.gt _)

/-- Every removed node is on the chain of a lone iterator. -/
private theorem Valid.reaches_of_single (hv : Valid c w) (hone : ∀ j ∈ w.iterators.dom, j = i)
    (hi : w.iterators.cell i = some it) (hm : w.nodes.cell m = some node)
    (hml : m ∉ w.linked) : Reaches w it.current m := by
  have hroot : ∀ a n, w.nodes.cell a = some n → (w.first = some a ∨ it.current = some a) ∨
      ∃ b m, w.nodes.cell b = some m ∧ m.next = some a := by
    intro a n hn
    have hc := hv.counted.count a n hn
    have hp := hv.counted.pos a n hn
    by_cases hin : 0 < inLinks w.nodes a
    · obtain ⟨b, m, hb, hlink⟩ := Store.exists_of_count_pos hin
      exact .inr ⟨b, m, hb, by simpa [Node.linksTo] using hlink⟩
    · refine .inl ?_
      by_cases hf : w.first = some a
      · exact .inl hf
      · have hrest : 0 < resting w.iterators a := by
          simp only [World.roots, Pi.add_apply, ref_of_ne hf] at hc
          omega
        obtain ⟨j, jt, hj, hat⟩ := Store.exists_of_count_pos hrest
        obtain rfl := hone j (Store.mem_dom_of_cell hj)
        obtain rfl := Option.some.inj (hi.symm.trans hj)
        exact .inr (by simpa [isAt] using hat)
  obtain ⟨b, l, hb, hl⟩ := hv.counted.descends.exists_root hroot hm
  rcases hb with hb | hb
  · exact absurd (hv.mem_linked_iff.mpr ⟨l, hb ▸ hl⟩) hml
  · exact ⟨l, hb ▸ hl⟩

/-- **A lone iterator skips removed nodes**: each of them has one reference. -/
theorem skipsRemoved_of_single (hv : Valid c w) (hone : ∀ j ∈ w.iterators.dom, j = i) :
    SkipsRemoved w i := by
  intro it hi
  refine .inr fun d hd n hn => ?_
  have hstart : ∀ a, it.current = some a → ∃ n, w.nodes.cell a = some n :=
    fun a ha => hv.exists_current hi ha
  obtain ⟨hdl, hr⟩ := (hv.mem_removedAhead hstart).mp hd
  have hc := hv.counted.count d n hn
  have hp := hv.counted.pos d n hn
  have hf : w.first ≠ some d := fun hf => hdl (hv.mem_linked_iff.mpr (hf ▸ .refl w d))
  simp only [World.roots, Pi.add_apply, ref_of_ne hf, Nat.zero_add] at hc
  -- the nodes that link to `d` are removed, hence on the chain of the iterator
  have hbehind : ∀ m k, w.nodes.cell m = some k → k.next = some d → Reaches w it.current m :=
    fun m k hm hk => hv.reaches_of_single hone hi hm fun hml => hdl (hv.next_mem_linked hml hm hk)
  have hlinks : inLinks w.nodes d ≤ 1 := by
    refine Store.count_le_one fun m m' k k' hm hm' hk hk' => ?_
    have hk : k.next = some d := by simpa [Node.linksTo] using hk
    have hk' : k'.next = some d := by simpa [Node.linksTo] using hk'
    rcases (hbehind m k hm hk).total (hbehind m' k' hm' hk') with hr | hr
    · exact hv.eq_of_next_eq hm hm' hk hk' hr
    · exact (hv.eq_of_next_eq hm' hm hk' hk hr).symm
  have hrest : resting w.iterators d ≤ 1 := by
    refine Store.count_le_one fun j j' _ _ hj hj' _ _ => ?_
    rw [hone j (Store.mem_dom_of_cell hj), hone j' (Store.mem_dom_of_cell hj')]
  -- and the iterator does not rest on a node behind another one of its chain
  have hnot : resting w.iterators d = 0 ∨ inLinks w.nodes d = 0 := by
    by_contra hboth
    rw [not_or] at hboth
    obtain ⟨j, jt, hj, hat⟩ := Store.exists_of_count_pos (Nat.pos_of_ne_zero hboth.1)
    obtain ⟨m, k, hm, hk⟩ := Store.exists_of_count_pos (Nat.pos_of_ne_zero hboth.2)
    obtain rfl := hone j (Store.mem_dom_of_cell hj)
    obtain rfl := Option.some.inj (hi.symm.trans hj)
    have hat : it.current = some d := by simpa [isAt] using hat
    have hk : k.next = some d := by simpa [Node.linksTo] using hk
    have hdm := hat ▸ hbehind m k hm hk
    exact irrefl_of c.gt _ (hv.gt_of_reaches hm (hk ▸ hdm) hm)
  omega

/-- `o` is the largest item of `S` that is smaller than `y`, if there is one. -/
def IsNextBelow (c : Comparator α) (S : List α) (y : α) (o : Option α) : Prop :=
  match o with
  | none => ∀ z ∈ S, ¬c.gt y z
  | some x => x ∈ S ∧ c.gt y x ∧ ∀ z ∈ S, c.gt y z → z = x ∨ c.gt x z

/-- **The next item.** In every run, a call of `SLNextItem` on the only open iterator answers
the next smaller listed item if and only if all smaller listed items are on the chain of the
iterator. -/
theorem nextItem_consecutive (h : Run (machine α) (start c) tr w) (he : e ∈ tr)
    (hop : e.op = .nextItem i) (hone : ∀ j ∈ e.pre.iterators.dom, j = i)
    (hi : e.pre.iterators.cell i = some it) (hcur : it.current = some a)
    (hy : e.pre.item a = some y) :
    (∃ o, e.out = .item o ∧ IsNextBelow c e.pre.items y o) ↔
      ∀ b ∈ e.pre.linked, ∀ z, e.pre.item b = some z → c.gt y z → Reaches e.pre (some a) b := by
  obtain ⟨hv, heff⟩ := effect_of_mem h he
  rw [hop] at heff
  obtain ⟨node, ha, rfl⟩ := World.item_eq_some.mp hy
  obtain ⟨q, freed, hout, hadv, hfreed⟩ := heff.nextItem_of_current hv hi hcur ha
  have hlisted := (hadv.listed_iff hv hi hcur ha).mpr (skipsRemoved_of_single hv hone)
  have hne : ∀ b z, e.pre.item b = some z → c.gt node.data z → b ≠ a := by
    rintro b z hz hgt rfl
    obtain rfl := Option.some.inj (hy.symm.trans hz)
    exact irrefl_of c.gt _ hgt
  have hrest : ∀ d, q = some d → ∃ n, e.pre.nodes.cell d = some n ∧ c.gt node.data n.data ∧
      Reaches e.pre (some a) d := by
    intro d hd
    have hr := hadv.reaches ha hd
    obtain ⟨n, hn⟩ := hv.exists_of_reaches ⟨node, ha⟩ (.head ha hr)
    exact ⟨n, hn, hv.gt_of_reaches ha hr hn, .head ha hr⟩
  constructor
  · rintro ⟨o, ho, hnext⟩ b hb z hz hgt
    obtain rfl : o = q.bind e.pre.item := by
      rw [hout, Answer.item.injEq] at ho
      exact ho.symm
    have hzmem : z ∈ e.pre.items := Valid.mem_items.mpr ⟨b, hb, hz⟩
    rcases q with _ | d
    · exact absurd hgt (hnext z hzmem)
    · -- the answered item is at least `z`, so its node comes before `b` in the list
      obtain ⟨n, hn, -, had⟩ := hrest d rfl
      have hd : e.pre.item d = some n.data := by simp [World.item, hn]
      simp only [Option.bind_some, hd] at hnext
      obtain ⟨m, hm, rfl⟩ := World.item_eq_some.mp hz
      rcases hnext.2.2 m.data hzmem hgt with hzd | hlt
      · rw [hzd] at hz
        rwa [hv.linked_inj hb (hlisted d rfl) hz hd]
      · exact had.trans (.head hn (hv.reaches_of_gt (hlisted d rfl) hb hn hm hlt))
  · -- every listed item below `y` is still ahead, and the iterator stops at the first one
    intro hall
    refine ⟨_, hout, ?_⟩
    rcases q with _ | d
    · intro z hz hgt
      obtain ⟨b, hb, hbz⟩ := Valid.mem_items.mp hz
      obtain ⟨d, hd, -⟩ := hadv.reaches_of_listed ha hfreed hb (hne b z hbz hgt)
        (hall b hb z hbz hgt)
      cases hd
    · obtain ⟨n, hn, hgtn, -⟩ := hrest d rfl
      have hd : e.pre.item d = some n.data := by simp [World.item, hn]
      simp only [Option.bind_some, hd]
      refine ⟨Valid.mem_items.mpr ⟨d, hlisted d rfl, hd⟩, hgtn, fun z hz hgt => ?_⟩
      obtain ⟨b, hb, hbz⟩ := Valid.mem_items.mp hz
      obtain ⟨m, hm, rfl⟩ := World.item_eq_some.mp hbz
      obtain ⟨d', hd', hr⟩ := hadv.reaches_of_listed ha hfreed hb (hne b m.data hbz hgt)
        (hall b hb m.data hbz hgt)
      obtain rfl := Option.some.inj hd'
      rcases hr.cases_head with hdb | ⟨u, v, hu, huv, hr⟩
      · obtain rfl := Option.some.inj hdb
        obtain rfl := Option.some.inj (hn.symm.trans hm)
        exact .inl rfl
      · obtain rfl := Option.some.inj hu
        obtain rfl := Option.some.inj (hn.symm.trans huv)
        exact .inr (hv.gt_of_reaches hn hr hm)

/-- An item goes while the iterator rests on it, and another one comes in its place. -/
def replacedItem : List (Op ℤ) :=
  [.insert 1 0, .insert 3 1, .createIterator 0, .remove 3, .insert 2 2, .nextItem 0]

private theorem exec_replacedItem : ((machine ℤ).exec (start compareInt) replacedItem).isSome := by
  decide +kernel

/-- From `3` the iterator goes on to `1`, although `2` is listed. -/
theorem nextItem_misses_inserted :
    ∃ tr w, Run (machine ℤ) (start compareInt) tr w ∧ ∃ e ∈ tr, e.op = .nextItem 0 ∧
      e.pre.iterators.dom = {0} ∧
      (∃ it a, e.pre.iterators.cell 0 = some it ∧ it.current = some a ∧
        e.pre.item a = some 3) ∧
      e.pre.items = [2, 1] ∧ e.out = .item (some 1) ∧
      ¬IsNextBelow compareInt e.pre.items 3 (some 1) := by
  have hitems : ((((machine ℤ).exec (start compareInt) replacedItem).get
      exec_replacedItem).1.getLast (by decide +kernel)).pre.items = [2, 1] := by decide +kernel
  refine ⟨_, _, Machine.run_get exec_replacedItem, _, List.getLast_mem (by decide +kernel), rfl,
    by decide +kernel, ⟨_, _, rfl, rfl, rfl⟩, hitems, by decide +kernel, ?_⟩
  rw [hitems]
  rintro ⟨-, -, hall⟩
  rcases hall 2 (by simp) rfl with h | h
  · exact absurd h (by decide)
  · exact absurd h (by unfold Comparator.gt; decide)

/-- The iterator of the closed session goes on from `3`, which is removed, to `2`. -/
theorem nextItem_consecutive_closedSession :
    advance.out = .item (some 2) ∧
      ∀ b ∈ advance.pre.linked, ∀ z, advance.pre.item b = some z → compareInt.gt 3 z →
        Reaches advance.pre (some 1) b := by
  have hnext : IsNextBelow compareInt advance.pre.items 3 (some 2) := by
    have hitems : advance.pre.items = [2, 1] := by decide +kernel
    rw [hitems]
    refine ⟨by simp, rfl, fun z hz _ => ?_⟩
    rcases List.mem_cons.mp hz with rfl | hz
    · exact .inl rfl
    · obtain rfl := List.mem_singleton.mp hz
      exact .inr rfl
  have hiff := nextItem_consecutive run_closedSession
    (List.get_mem _ _ : advance ∈ closedRun.1) (i := 0) (y := 3) rfl (by decide +kernel)
    rfl rfl rfl
  exact ⟨by decide +kernel, hiff.mp ⟨some 2, by decide +kernel, hnext⟩⟩

end Cs214.SortedList

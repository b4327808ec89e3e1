import Cs214.MultithreadedBanking.Flow

/-!
# The names of the accounts

The name of an account is the text of its field up to the NUL. `search_account` compares it
with the name of a request character by character, while other processes may open accounts
behind the ones it looks at; `Pc.Knows` says what a process knows about the names at each point
of its code. One step of a process keeps this and the names of the open accounts distinct
(`client_knows`), and so does a whole run (`named_of_run`).
-/

namespace Cs214.MultithreadedBanking

open Tokenizer (CString nul)

set_option linter.unusedSectionVars false

variable {F : Type} [Arithmetic F] {p q a : ℕ} {sh sh' : ServerSession F} {c c' : Client F}
  {i : Input} {out : Output} {sendable : Request → Prop} {tr : List (Step F)}
  {s : Configuration ℕ (ServerSession F) (Client F)} {name : ℕ → Char} {text : CString}
  {n index j k : ℕ} {r : Search}

/-! ### The text of a name -/

/-- **A name that can be sent**: a string that fits into the field of a request. -/
structure IsName (text : CString) : Prop where
  length : text.length < nameMaxLength
  nul : nul ∉ text

/-- Behind a text there are NULs. -/
theorem charAt_of_le (h : text.length ≤ k) : charAt text k = nul := by
  rw [charAt, List.getD_eq_getElem?_getD, List.getElem?_eq_none h]
  rfl

/-- In it there are none. -/
theorem charAt_ne_nul (ht : nul ∉ text) (h : k < text.length) : charAt text k ≠ nul := by
  rw [charAt, List.getD_eq_getElem?_getD, List.getElem?_eq_getElem h, Option.getD_some]
  exact fun heq => ht (heq ▸ List.getElem_mem h)

/-- The characters of a field up to its NUL. -/
private theorem takeWhile_eq_iff {field : List Char} (ht : nul ∉ text)
    (hlength : text.length < field.length) : field.takeWhile (· != nul) = text ↔
      ∀ k ≤ text.length, charAt field k = charAt text k := by
  induction text generalizing field with
  | nil =>
    obtain ⟨d, field, rfl⟩ := List.exists_cons_of_length_pos hlength
    have hd : charAt (d :: field) 0 = d := rfl
    simp [List.takeWhile_cons, hd, charAt_of_le]
  | cons c text ih =>
    obtain ⟨d, field, rfl⟩ := List.exists_cons_of_length_pos (Nat.zero_lt_of_lt hlength)
    obtain ⟨hc, ht⟩ := not_or.mp (mt List.mem_cons.mpr ht)
    have hsucc (l : CString) (e : Char) (k : ℕ) : charAt (e :: l) (k + 1) = charAt l k := rfl
    have hfield := ih ht (Nat.lt_of_succ_lt_succ hlength)
    constructor
    · intro h
      rw [List.takeWhile_cons] at h
      split at h
      · obtain ⟨rfl, htail⟩ := List.cons.inj h
        intro k hk
        cases k with
        | zero => rfl
        | succ k => exact hfield.mp htail k (Nat.le_of_succ_le_succ hk)
      · cases h
    · intro h
      obtain rfl : d = c := h 0 (Nat.zero_le _)
      rw [List.takeWhile_cons, if_pos (bne_iff_ne.mpr (Ne.symm hc)),
        hfield.mpr fun k hk => h (k + 1) (Nat.succ_le_succ hk)]

/-- **The text of a name field** is the string that it agrees with up to and including the
terminating NUL. -/
theorem nameText_eq_iff (ht : IsName text) :
    nameText name = text ↔ ∀ k ≤ text.length, name k = charAt text k := by
  have hchar (k : ℕ) (hk : k < nameMaxLength) :
      charAt ((List.range nameMaxLength).map name) k = name k := by
    rw [charAt, List.getD_eq_getElem?_getD, List.getElem?_map, List.getElem?_range hk]
    rfl
  rw [nameText, takeWhile_eq_iff ht.nul (by simpa using ht.length)]
  exact forall₂_congr fun k hk => by rw [hchar k (hk.trans_lt ht.length)]

/-! ### The search -/

/-- The names of the open accounts are distinct. -/
def Distinct (sh : ServerSession F) : Prop := ∀ a b, a < sh.accountsNo → b < sh.accountsNo →
  nameText (sh.accounts a).name = nameText (sh.accounts b).name → a = b

/-- None of the first `n` accounts has the name. -/
def Absent (sh : ServerSession F) (n : ℕ) (text : CString) : Prop :=
  ∀ a < n, nameText (sh.accounts a).name ≠ text

/-- **What the search of the first `n` accounts knows**: the names it has passed are different,
and so far the characters of the one it is at are the same. -/
def Search.Knows (sh : ServerSession F) (n : ℕ) (text : CString) : Search → Prop
  | .compare index j => Absent sh index text ∧
      ∀ k < j, (sh.accounts index).name k = charAt text k ∧ charAt text k ≠ nul
  | .result none => Absent sh n text
  | .result (some index) => (index < n → nameText (sh.accounts index).name = text) ∧
      (index = n → Absent sh n text)

/-- At the head of the loop, the name is in no account that was passed. -/
private theorem searchFrom_knows (h : Absent sh index text) (hle : index ≤ n) :
    (searchFrom n index).Knows sh n text := by
  unfold searchFrom
  split
  · exact ⟨h, fun k hk => absurd hk (Nat.not_lt_zero k)⟩
  · rename_i hlt
    obtain rfl : index = n := by omega
    exact ⟨fun h => absurd h hlt, fun _ => h⟩

/-- At the start of the search nothing is known. -/
theorem searchAccount_knows (sh : ServerSession F) (n : ℕ) (text : CString) :
    (searchAccount n).Knows sh n text := by
  have hzero : Absent sh 0 text := fun a ha => absurd ha (Nat.not_lt_zero a)
  unfold searchAccount
  split
  · rename_i hn
    rwa [hn]
  · exact searchFrom_knows hzero n.zero_le

/-- **One character of a comparison.** -/
theorem searchStep_knows {j : ℕ} (ht : IsName text) (hindex : index < n)
    (h : (Search.compare index j).Knows sh n text)
    (hs : searchStep sh n index j text = some r) : r.Knows sh n text := by
  obtain ⟨habsent, hsame⟩ := h
  have hj : j ≤ text.length := by
    by_contra hlt
    exact (hsame text.length (by omega)).2 (charAt_of_le le_rfl)
  simp only [searchStep, Option.bind_eq_bind, Option.bind_eq_some_iff] at hs
  obtain ⟨x, hx, hs⟩ := hs
  obtain rfl := account?_eq_some hx
  split_ifs at hs with hroom hdiff hend
  · -- the names differ at this character
    obtain rfl := Option.some.inj hs
    refine searchFrom_knows (fun a ha => ?_) hindex
    rcases Nat.lt_succ_iff_lt_or_eq.mp ha with ha | rfl
    · exact habsent a ha
    · exact fun heq => hdiff ((nameText_eq_iff ht).mp heq j hj)
  · obtain rfl := Option.some.inj hs
    have hlength : text.length ≤ j := by
      by_contra hlt
      exact charAt_ne_nul ht.nul (not_le.mp hlt) hend
    refine ⟨fun _ => (nameText_eq_iff ht).mpr fun k hk => ?_, fun h => absurd hindex h.not_lt⟩
    rcases Nat.lt_or_eq_of_le (hk.trans hlength) with hk | rfl
    · exact (hsame k hk).1
    · exact not_not.mp hdiff
  · obtain rfl := Option.some.inj hs
    refine ⟨habsent, fun k hk => ?_⟩
    rcases Nat.lt_succ_iff_lt_or_eq.mp hk with hk | rfl
    · exact hsame k hk
    · exact ⟨not_not.mp hdiff, hend⟩

/-! ### What a process knows about the names -/

/-- What `client_open` knows at its points; behind the search the name is new. -/
def OpenPc.Knows (sh : ServerSession F) (text : CString) : OpenPc → Prop
  | .lock | .full | .count | .unlock _ => True
  | .search n index j => (Search.compare index j).Knows sh n text
  | .found index => (Search.result (some index)).Knows sh sh.accountsNo text
  | .mutex _ => Absent sh sh.accountsNo text
  | .name index j => Absent sh sh.accountsNo text ∧
      ∀ k < j, (sh.accounts index).name k = charAt text k
  | .balance index | .session index | .storeNo index =>
      Absent sh sh.accountsNo text ∧ nameText (sh.accounts index).name = text
  | .loadNo => Absent sh sh.accountsNo text ∧
      nameText (sh.accounts sh.accountsNo).name = text

/-- What `client_start` knows at its points. -/
def StartPc.Knows (sh : ServerSession F) (text : CString) : StartPc → Prop
  | .lock | .count | .unlock _ | .enter => True
  | .search n index j => (Search.compare index j).Knows sh n text
  | .trylock index | .wait index => nameText (sh.accounts index).name = text

/-- **What a process knows about the names** at a point of its code. -/
def Pc.Knows (sh : ServerSession F) (c : Client F) : Pc F → Prop
  | .clientOpen l => l.Knows sh c.request.message
  | .clientStart l => l.Knows sh c.request.message
  | _ => True

/-- What is known of the names stays while the names do. -/
theorem Absent.congr (h : Absent sh n text)
    (hname : ∀ a < n, (sh'.accounts a).name = (sh.accounts a).name) : Absent sh' n text :=
  fun a ha => by
    rw [hname a ha]
    exact h a ha

private theorem Distinct.congr (h : Distinct sh) (hno : sh'.accountsNo = sh.accountsNo)
    (hname : ∀ a < sh.accountsNo, (sh'.accounts a).name = (sh.accounts a).name) :
    Distinct sh' := by
  intro a b ha hb heq
  rw [hno] at ha hb
  rw [hname a ha, hname b hb] at heq
  exact h a b ha hb heq

private theorem OpenPc.Knows.congr {l : OpenPc} (h : l.Knows sh text)
    (hno : sh'.accountsNo = sh.accountsNo)
    (hname : ∀ a, (sh'.accounts a).name = (sh.accounts a).name) : l.Knows sh' text := by
  cases l with
  | lock | full | count | unlock => trivial
  | _ => simpa only [OpenPc.Knows, Search.Knows, Absent, hno, hname] using h

private theorem StartPc.Knows.congr {l : StartPc} (h : l.Knows sh text) (hl : l.Holds sh c)
    (hname : ∀ a < sh.accountsNo, (sh'.accounts a).name = (sh.accounts a).name) :
    l.Knows sh' text := by
  cases l with
  | lock | count | unlock | enter => trivial
  | search n index j =>
    obtain ⟨-, hn, hindex⟩ := hl
    refine ⟨h.1.congr fun a ha => hname a (by omega), fun k hk => ?_⟩
    rw [hname index (by omega)]
    exact h.2 k hk
  | trylock | wait =>
    rw [StartPc.Knows, hname _ hl.2]
    exact h

/-! ### The steps that search -/

/-- A search hands on what it knows. -/
private theorem openSearch_knows (h : r.Knows sh sh.accountsNo c.request.message) :
    (openSearch c sh.accountsNo r).pc.Knows sh (openSearch c sh.accountsNo r) := by
  match r, h with
  | .compare index j, h => exact h
  | .result none, h => exact h
  | .result (some index), h => exact h

private theorem startSearch_knows (hr : r.Within n) (h : r.Knows sh n c.request.message) :
    (startSearch c n r).pc.Knows sh (startSearch c n r) := by
  match r, hr, h with
  | .compare index j, _, h => exact h
  | .result none, _, _ => trivial
  | .result (some index), hr, h =>
    simp only [startSearch]
    split
    · trivial
    · rename_i hne
      exact h.1 (lt_of_le_of_ne hr hne)

/-- A slot behind the open accounts does not concern their names. -/
theorem name_modify_of_lt (f : Account F → Account F) (h : a < sh.accountsNo) :
    ((sh.modify sh.accountsNo f).accounts a).name = (sh.accounts a).name := by
  rw [sh.modify_accounts_of_ne _ f h.ne]

/-- A store into the account that is opened leaves the search as it was. -/
private theorem store_knows {f : Account F → Account F} {l : OpenPc} (hD : Distinct sh)
    (habsent : Absent sh sh.accountsNo c.request.message)
    (hl : Absent (sh.modify sh.accountsNo f) sh.accountsNo c.request.message →
      l.Knows (sh.modify sh.accountsNo f) c.request.message) :
    Distinct (sh.modify sh.accountsNo f) ∧
      (c.goto (.clientOpen l)).pc.Knows (sh.modify sh.accountsNo f) (c.goto (.clientOpen l)) :=
  ⟨hD.congr rfl fun _ ha => name_modify_of_lt f ha,
    hl (habsent.congr fun _ ha => name_modify_of_lt f ha)⟩

/-- One more character of a name is copied. -/
private theorem name_copied {j : ℕ} (h : ∀ k < j, name k = charAt text k) :
    ∀ k < j + 1, Function.update name j (charAt text j) k = charAt text k := by
  intro k hk
  rcases Nat.lt_succ_iff_lt_or_eq.mp hk with hk | rfl
  · exact (Function.update_of_ne hk.ne _ _).trans (h k hk)
  · exact Function.update_self ..

/-- **A step of `client_open`** keeps the names distinct. -/
theorem clientOpen_knows {l : OpenPc} (ht : IsName c.request.message) (hD : Distinct sh)
    (hl : l.Holds sh) (hk : l.Knows sh c.request.message)
    (hs : clientOpen p sh c l = some (sh', c', out)) : Distinct sh' ∧ c'.pc.Knows sh' c' := by
  cases clientOpen_cases hs with
  | lock | full | room | present | refused | opened => exact ⟨hD, trivial⟩
  | count => exact ⟨hD, openSearch_knows (searchAccount_knows _ _ _)⟩
  | search hr =>
    obtain ⟨rfl, -, hindex⟩ := hl
    exact ⟨hD, openSearch_knows (searchStep_knows ht hindex hk hr)⟩
  | absent hindex =>
    obtain ⟨-, hle⟩ := hl
    exact ⟨hD, hk.2 (by omega)⟩
  | mutex index =>
    obtain ⟨rfl, -⟩ := hl
    exact store_knows hD hk fun h => ⟨h, fun k hk => absurd hk (Nat.not_lt_zero k)⟩
  | name index j =>
    obtain ⟨rfl, -⟩ := hl
    refine store_knows hD hk.1 fun h => ?_
    split
    · refine ⟨h, ?_⟩
      rw [sh.modify_accounts_self]
      exact name_copied hk.2
    · -- the whole field is copied, and with it the NUL behind the name
      refine ⟨h, (nameText_eq_iff ht).mpr fun k hle => ?_⟩
      have hlength := ht.length
      rw [sh.modify_accounts_self]
      exact name_copied hk.2 k (by omega)
  | balance index =>
    obtain ⟨rfl, -⟩ := hl
    refine store_knows hD hk.1 fun h => ⟨h, ?_⟩
    rw [sh.modify_accounts_self]
    exact hk.2
  | session index =>
    obtain ⟨rfl, -⟩ := hl
    refine store_knows hD hk.1 fun h => ⟨h, ?_⟩
    change nameText ((sh.modify sh.accountsNo _).accounts sh.accountsNo).name = _
    rw [sh.modify_accounts_self]
    exact hk.2
  | loadNo => exact ⟨hD, hk⟩
  | storeNo n =>
    obtain ⟨rfl, -⟩ := hl
    refine ⟨fun a b ha hb heq => ?_, trivial⟩
    -- the new name differs from those of the other accounts
    rcases Nat.lt_succ_iff_lt_or_eq.mp ha with ha | rfl <;>
      rcases Nat.lt_succ_iff_lt_or_eq.mp hb with hb | rfl
    · exact hD a b ha hb heq
    · exact absurd (heq.trans hk.2) (hk.1 a ha)
    · exact absurd (heq.symm.trans hk.2) (hk.1 b hb)
    · rfl

/-- A store into another field leaves the names. -/
theorem name_modify {f : Account F → Account F} (hf : ∀ x, (f x).name = x.name) (b : ℕ) :
    ((sh.modify a f).accounts b).name = (sh.accounts b).name :=
  ServerSession.forall_modify (P := fun b x => x.name = (sh.accounts b).name) (hf _)
    (fun _ _ => rfl) b

/-- **A step of `client_start`** leaves them as they are. -/
theorem clientStart_knows {l : StartPc} (ht : IsName c.request.message) (hD : Distinct sh)
    (hl : l.Holds sh c) (hk : l.Knows sh c.request.message)
    (hs : clientStart p sh c i l = some (sh', c', out)) : Distinct sh' ∧ c'.pc.Knows sh' c' := by
  cases clientStart_cases hs with
  | lock | count => exact ⟨hD, trivial⟩
  | unlock n => exact ⟨hD, startSearch_knows (searchAccount_within n) (searchAccount_knows _ n _)⟩
  | search hr =>
    obtain ⟨-, -, hindex⟩ := hl
    exact ⟨hD, startSearch_knows (searchStep_within hindex hr) (searchStep_knows ht hindex hk hr)⟩
  | take | enter => exact ⟨hD.congr rfl fun a _ => name_modify (fun _ => by rfl) a, trivial⟩
  | busy | wait => exact ⟨hD, hk⟩

/-! ### The other steps -/

/-- The points of `client_open` and `client_start` behind their first step. -/
def Pc.calls : Pc F → Bool
  | .clientOpen .lock | .clientStart .lock => false
  | .clientOpen _ | .clientStart _ => true
  | _ => false

/-- Outside the two calls nothing is to be known. -/
private theorem Pc.knows_of_calls {pc : Pc F} (h : pc.calls = false) : pc.Knows sh c := by
  cases pc with
  | clientOpen l =>
    cases l with
    | lock => trivial
    | _ => cases h
  | clientStart l =>
    cases l with
    | lock => trivial
    | _ => cases h
  | _ => trivial

/-- The answer, and the points of a function that takes no name. -/
private theorem calls_of_flow {α : Type} {pc : α → Pc F} (h : c.pc = .reply ∨ ∃ l, c.pc = pc l)
    (hpc : ∀ l, (pc l).calls = false) : c.pc.calls = false := by
  rcases h with h | ⟨l, h⟩
  · rw [h]
    rfl
  · rw [h, hpc]

private theorem endSession_calls (c : Client F) (ending : Ending) :
    (endSession c ending).pc.calls = false := by
  unfold endSession
  split
  · cases ending <;> rfl
  · rfl

/-- Only `client_open` and `client_start` lead behind their first step. -/
private theorem client_calls (hs : client p sh c i = some (sh', c', out))
    (hopen : ∀ l, c.pc ≠ .clientOpen l) (hstart : ∀ l, c.pc ≠ .clientStart l) :
    c'.pc.calls = false := by
  cases client_cases hs with
  | select _ _ _ hc =>
    rw [hc]
    unfold afterSelect
    split_ifs
    · rfl
    · exact endSession_calls _ _
    · rfl
  | listen _ _ _ hc =>
    rw [hc]
    unfold afterRead
    split_ifs
    · exact endSession_calls _ _
    · rfl
  | check _ hs =>
    obtain ⟨-, -, rfl | rfl⟩ := check_flow hs
    · unfold inSession
      split <;> rfl
    · unfold outOfSession
      split <;> rfl
  | clientOpen l hpc _ => exact absurd hpc (hopen l)
  | clientStart l hpc _ => exact absurd hpc (hstart l)
  | clientDebit l _ hs =>
    obtain ⟨-, -, -, h⟩ := clientDebit_flow hs
    exact calls_of_flow (h.elim (fun h => .inl h.1) fun h => h.2) fun _ => rfl
  | clientCredit l _ hs => exact calls_of_flow (clientCredit_flow hs).2.2 fun _ => rfl
  | balance l _ hs => exact calls_of_flow (clientBalance_flow hs).2.2 fun _ => rfl
  | setNotInSession ending l _ hs =>
    obtain ⟨-, -, ⟨l', hpc⟩ | rfl⟩ := setNotInSession_flow hs
    · rw [hpc]
      rfl
    · cases ending <;> rfl
  | retry hpc _ hc =>
    rw [hc, hpc]
    rfl
  | answer _ _ hc =>
    rw [hc]
    split <;> rfl
  | timeOut _ _ _ _ hc =>
    rw [hc]
    rfl

/-- **The name of an open account** stays. -/
theorem Change.name_of_lt (hc : Change p sh sh') (ha : a < sh.accountsNo) :
    (sh'.accounts a).name = (sh.accounts a).name := by
  cases hc with
  | none | lock | unlock | count => rfl
  | take | release => exact name_modify (fun _ => by rfl) a
  | own b f _ _ hname => exact name_modify hname a
  | init f => exact name_modify_of_lt f ha

/-- **The lock of new accounts** protects all names and their number. -/
theorem Change.names_of_lock (hc : Change p sh sh') (h : sh.newAccountLockMutex ≠ some p) :
    sh'.accountsNo = sh.accountsNo ∧ ∀ a, (sh'.accounts a).name = (sh.accounts a).name := by
  cases hc with
  | none | lock => exact ⟨rfl, fun _ => rfl⟩
  | unlock hp | init _ hp | count hp => exact absurd hp h
  | take | release => exact ⟨rfl, name_modify fun _ => rfl⟩
  | own b f _ _ hname => exact ⟨rfl, name_modify hname⟩

/-- The accounts are never fewer. -/
theorem Change.grows (hc : Change p sh sh') : sh.accountsNo ≤ sh'.accountsNo := by
  cases hc with
  | count => exact Nat.le_succ _
  | _ => exact le_rfl

/-! ### Every reachable state -/

/-- A request to open or start an account has a name. -/
def Request.HasName (r : Request) : Prop := r.code = .open_ ∨ r.code = .start → IsName r.message

/-- **The assertion about the names.** -/
structure Named (p : ℕ) (sh : ServerSession F) (c : Client F) : Prop where
  assertion : Assertion p sh c
  request : c.request.HasName
  knows : c.pc.Knows sh c

/-- **A step of a process.** -/
theorem client_knows (hN : Named p sh c) (hD : Distinct sh) (hc : Change p sh sh')
    (hs : client p sh c i = some (sh', c', out)) : Distinct sh' ∧ c'.pc.Knows sh' c' := by
  have hA := hN.assertion
  have hholds := hA.holds
  have hknows := hN.knows
  have hother (hlocked : c.pc.locked = false) (hopen : ∀ l, c.pc ≠ .clientOpen l)
      (hstart : ∀ l, c.pc ≠ .clientStart l) : Distinct sh' ∧ c'.pc.Knows sh' c' := by
    obtain ⟨hno, hname⟩ := hc.names_of_lock (by simp [hA.lock, hlocked])
    exact ⟨hD.congr hno fun a _ => hname a, Pc.knows_of_calls (client_calls hs hopen hstart)⟩
  cases hpc : c.pc with
  | clientOpen l =>
    rw [hpc] at hholds hknows
    unfold client at hs
    rw [hpc] at hs
    exact clientOpen_knows (hN.request (.inl hholds.1)) hD hholds.2.2 hknows hs
  | clientStart l =>
    rw [hpc] at hholds hknows
    unfold client at hs
    rw [hpc] at hs
    exact clientStart_knows (hN.request (.inr hholds.1)) hD hholds.2 hknows hs
  | _ => exact hother (by rw [hpc]; rfl) (by simp [hpc]) (by simp [hpc])

/-- The assertion about the names survives the steps of the others. -/
private theorem Named.stable (hN : Named q sh c) (hI : Invariant sh) (hq : q ≠ p)
    (hc : Change p sh sh') : Named q sh' c where
  assertion := hN.assertion.stable (hc.stable hI hq)
  request := hN.request
  knows := by
    have hholds := hN.assertion.holds
    have hlock := hN.assertion.lock
    have hknows := hN.knows
    generalize c.pc = pc at hholds hlock hknows ⊢
    cases pc with
    | clientOpen l =>
      by_cases hl : l = .lock
      · rw [hl]
        trivial
      · -- the process holds the lock, so the other one does not
        have hheld : sh.newAccountLockMutex = some q :=
          hlock.mpr (by cases l <;> first | rfl | exact absurd rfl hl)
        obtain ⟨hno, hname⟩ := hc.names_of_lock
          (by rw [hheld]; exact fun heq => hq (Option.some.inj heq))
        exact OpenPc.Knows.congr hknows hno hname
    | clientStart l => exact StartPc.Knows.congr hknows hholds.2 fun a ha => hc.name_of_lt ha
    | _ => trivial

/-- **The names are distinct in every reachable state**, and every process knows what it relies on
about them. -/
theorem named_of_run (hsendable : ∀ r, sendable r → r.HasName)
    (hr : Run (program sendable).machine (start sendable) tr s) :
    (Invariant s.shared ∧ Distinct s.shared) ∧ ∀ p, Named p s.shared (s.locals p) := by
  refine hr.relyGuarantee (R := Change) (G := fun sh => Invariant sh ∧ Distinct sh)
    ⟨invariant_init, fun a _ ha => absurd ha (Nat.not_lt_zero a)⟩
    (fun p => ⟨assertion_init p, fun h => by simp [program, Client.init] at h, trivial⟩) ?_ ?_
  · rintro p sh c i sh' c' out ⟨hI, hD⟩ hN hen hs
    obtain ⟨hc, hA'⟩ := client_spec hI hN.assertion hen.free hs
    obtain ⟨hD', hknows⟩ := client_knows hN hD hc hs
    refine ⟨⟨hc.invariant hI, hD'⟩, ⟨hA', ?_, hknows⟩, hc⟩
    rcases client_request hs with hsame | ⟨n, hn, rfl⟩
    · rw [hsame]
      exact hN.request
    · exact hsendable _ (hen.sent hn)
  · rintro p q sh sh' c hq ⟨hI, -⟩ hN hc
    exact hN.stable hI hq hc

end Cs214.MultithreadedBanking

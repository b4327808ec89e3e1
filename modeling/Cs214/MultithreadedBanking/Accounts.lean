import Cs214.MultithreadedBanking.Names
import Cs214.MultithreadedBanking.Ledger

/-!
# Opening accounts

What the clients can rely on when many of them open and start accounts at a time. The answer to
an OPEN is decided while its process holds the lock (`OpenPc.Decides`), and the answer to a START
by the number of accounts it has loaded under the lock, although it searches them without it
(`StartPc.Snapshot`): the accounts are only added to, and their names never change.
-/

namespace Cs214.MultithreadedBanking

open Tokenizer (CString nul)

set_option linter.unusedSectionVars false

variable {F : Type} [Arithmetic F] {p q a : ℕ} {sh sh' sh₀ : ServerSession F} {c c' : Client F}
  {i : Input} {out : Output} {sendable : Request → Prop} {tr tr₁ tr₂ : List (Step F)} {e : Step F}
  {s : Configuration ℕ (ServerSession F) (Client F)} {text : CString} {n index : ℕ} {r : Search}
  {V : Prop}

/-! ### The answer to an OPEN -/

/-- What is decided at the points of `client_open`, where `V` says whether the account can be
opened. -/
def OpenPc.Decides (V : Prop) (sh : ServerSession F) (c : Client F) : OpenPc → Prop
  | .lock => False
  | .full => V ↔ Absent sh sh.accountsNo c.request.message ∧ sh.accountsNo < maxAccount
  | .count | .search _ _ _ | .found _ => V ↔ Absent sh sh.accountsNo c.request.message
  | .mutex _ | .name _ _ | .balance _ | .session _ | .loadNo | .storeNo _ => V
  | .unlock opened => (V ↔ opened = true) ∧ (opened = false → c.response.code ≠ .success)

/-- What is decided until the response is written. -/
def Pc.Decides (V : Prop) (sh : ServerSession F) (c : Client F) : Pc F → Prop
  | .clientOpen l => l.Decides V sh c
  | .reply => V ↔ c.response.code = .success
  | _ => False

private theorem openSearch_decides (hV : V ↔ Absent sh sh.accountsNo c.request.message)
    (h : r.Knows sh sh.accountsNo c.request.message) :
    (openSearch c sh.accountsNo r).pc.Decides V sh (openSearch c sh.accountsNo r) := by
  match r, h with
  | .compare index j, _ => exact hV
  | .result none, h => exact hV.mpr h
  | .result (some index), _ => exact hV

/-- **A step of `client_open`** decides as the accounts are at its lock. -/
theorem clientOpen_decides {l : OpenPc} (ht : IsName c.request.message) (hI : Invariant sh)
    (hl : l.Holds sh) (hk : l.Knows sh c.request.message) (hV : l.Decides V sh c)
    (hs : clientOpen p sh c l = some (sh', c', out)) : c'.pc.Decides V sh' c' := by
  cases clientOpen_cases hs with
  | lock => exact hV.elim
  | full hfull =>
    -- no room: refused
    refine ⟨iff_of_false (fun hv => ?_) Bool.false_ne_true, fun _ => ResponseCode.noConfusion⟩
    exact absurd (hV.mp hv).2 (by omega)
  | room hroom => exact hV.trans (and_iff_left (lt_of_le_of_ne hI.room hroom))
  | count => exact openSearch_decides hV (searchAccount_knows _ _ _)
  | search hr =>
    obtain ⟨rfl, -, hindex⟩ := hl
    exact openSearch_decides hV (searchStep_knows ht hindex hk hr)
  | @present index hindex =>
    -- the account with the name has been found: refused
    have hindex : index < sh.accountsNo := by omega
    refine ⟨iff_of_false (fun hv => ?_) Bool.false_ne_true, fun _ => ResponseCode.noConfusion⟩
    exact hV.mp hv index hindex (hk.1 hindex)
  | absent hindex =>
    obtain ⟨-, hle⟩ := hl
    exact hV.mpr (hk.2 (by omega))
  | mutex | balance | session | loadNo => exact hV
  | name =>
    simp only [Client.goto]
    split <;> exact hV
  | storeNo =>
    -- the account counts as open from here on, and the answer is settled
    exact ⟨iff_of_true hV rfl, fun h => by cases h⟩
  | refused => exact hV.1.trans (iff_of_false Bool.false_ne_true (hV.2 rfl))
  | opened => exact hV.1.trans (iff_of_true rfl rfl)

/-- A silent step of the process itself. -/
private theorem client_decides (hI : Invariant sh) (hN : Named p sh c) (hV : c.pc.Decides V sh c)
    (hs : client p sh c i = some (sh', c', .silent)) : c'.pc.Decides V sh' c' := by
  have hholds := hN.assertion.holds
  have hknows := hN.knows
  cases client_cases hs with
  | clientOpen l hpc hs =>
    rw [hpc] at hholds hknows hV
    exact clientOpen_decides (hN.request (.inl hholds.1)) hI hholds.2.2 hknows hV hs
  | retry hpc hsh hc =>
    subst hsh hc
    exact hV
  | answer _ _ _ hout => cases hout
  | select hpc | listen hpc | check hpc | clientStart _ hpc | clientDebit _ hpc
  | clientCredit _ hpc | balance _ hpc | setNotInSession _ _ hpc | timeOut _ hpc =>
    rw [hpc] at hV
    exact hV.elim

/-- A step of another process: the lock is held, or the response is formed. -/
private theorem Pc.Decides.stable {pc : Pc F} (hV : pc.Decides V sh c) (hq : q ≠ p)
    (hlock : sh.newAccountLockMutex = some q ↔ pc.locked = true) (hc : Change p sh sh') :
    pc.Decides V sh' c := by
  cases pc with
  | reply => exact hV
  | clientOpen l =>
    have hl : l ≠ .lock := by
      rintro rfl
      exact hV
    have hheld : sh.newAccountLockMutex = some q :=
      hlock.mpr (by cases l <;> first | rfl | exact absurd rfl hl)
    obtain ⟨hno, hname⟩ := hc.names_of_lock
      (by rw [hheld]; exact fun heq => hq (Option.some.inj heq))
    cases l with
    | full | count | search | found =>
      simpa only [Pc.Decides, OpenPc.Decides, Absent, hno, hname] using hV
    | _ => exact hV
  | _ => exact hV.elim

/-! ### Answers -/

/-- **The first answer of a process after an event.** -/
def FirstAnswer (tr : List (Step F)) (e₁ e₂ : Step F) (r : Response) : Prop :=
  ∃ tr₁ tr₂ tr₃, tr = tr₁ ++ e₁ :: tr₂ ++ e₂ :: tr₃ ∧ e₂.op.1 = e₁.op.1 ∧
    (∀ f ∈ tr₂, f.op.1 = e₁.op.1 → f.out = .silent) ∧ e₂.out = .wrote r

/-- **What holds of a process since an event**, until it writes. -/
theorem silent_since {J : ServerSession F → Client F → Prop}
    (hsendable : ∀ r, sendable r → r.HasName)
    (hr : Run (program sendable).machine (start sendable) (tr₁ ++ e :: tr₂) s)
    (hsilent : ∀ f ∈ tr₂, f.op.1 = e.op.1 → f.out = .silent)
    (hstart : J e.post.shared (e.post.locals e.op.1))
    (hown : ∀ {sh sh' c c' i}, Invariant sh → Named e.op.1 sh c → J sh c →
      Change e.op.1 sh sh' → client e.op.1 sh c i = some (sh', c', .silent) → J sh' c')
    (hother : ∀ {p sh sh' c}, e.op.1 ≠ p → Named e.op.1 sh c → J sh c → Change p sh sh' →
      J sh' c) : J s.shared (s.locals e.op.1) := by
  refine hr.since (I := fun s => J s.shared (s.locals e.op.1)) hstart ?_
  rintro f hf ⟨tr₃, hr⟩ hJ hocc
  obtain ⟨⟨hI, -⟩, hN⟩ := named_of_run hsendable hr
  have hs := hocc.localStep
  have hc := (client_spec hI (hN _).assertion hocc.legal.free hs).1
  by_cases hp : f.op.1 = e.op.1
  · rw [hp] at hc
    rw [hsilent f hf hp, hp] at hs
    exact hown hI (hN _) hJ hc hs
  · rw [hocc.locals_of_ne (Ne.symm hp)]
    exact hother (Ne.symm hp) (hN _) hJ hc

/-- **The answer to an OPEN** is success exactly if the account could be opened when the lock was
taken. -/
theorem open_answer (hsendable : ∀ r, sendable r → r.HasName)
    (hr : Run (program sendable).machine (start sendable) tr s) {e₁ e₂ : Step F} {r : Response}
    (h : FirstAnswer tr e₁ e₂ r) (hlock : (stepper e₁).pc = .clientOpen .lock) :
    r.code = .success ↔ Absent e₁.pre.shared e₁.pre.shared.accountsNo (stepper e₁).request.message ∧
      e₁.pre.shared.accountsNo < maxAccount := by
  obtain ⟨tr₁, tr₂, tr₃, rfl, hp, hsilent, hout⟩ := h
  obtain ⟨hr₂, hocc₂, -⟩ := hr.split
  obtain ⟨-, hocc₁, -⟩ := hr₂.split
  set V := Absent e₁.pre.shared e₁.pre.shared.accountsNo (stepper e₁).request.message ∧
    e₁.pre.shared.accountsNo < maxAccount with hV
  have hJ : (e₂.pre.locals e₁.op.1).pc.Decides V e₂.pre.shared (e₂.pre.locals e₁.op.1) := by
    refine silent_since (J := fun sh c => c.pc.Decides V sh c) hsendable hr₂ hsilent ?_
      (fun hI hN hV _ hs => client_decides hI hN hV hs)
      fun hq hN hV hc => hV.stable hq hN.assertion.lock hc
    have hs := hocc₁.localStep
    change client _ _ _ _ = _ at hs
    unfold client at hs
    rw [show (e₁.pre.locals e₁.op.1).pc = _ from hlock] at hs
    obtain ⟨hsh, hc, -⟩ := move_eq_some hs
    rw [← hsh, ← hc]
    exact Iff.rfl
  have hs := hocc₂.localStep
  rw [hout, hp] at hs
  rcases client_output hs with ⟨hpc, rfl, -⟩ | ⟨index, hpc, -⟩ | ⟨hpc, -⟩
  · rw [hpc] at hJ
    exact hJ.symm
  · rw [hpc] at hJ
    exact hJ.elim
  · rw [hpc] at hJ
    exact hJ.elim

/-! ### The answer to a START -/

/-- What is known behind the load of the number `n` of accounts, where `V` says that none of them
has the name. -/
def Pc.Snapshot (V : Prop) (n : ℕ) (c : Client F) : Pc F → Prop
  | .clientStart (.unlock m) | .clientStart (.search m _ _) => m = n
  | .clientStart (.trylock _) | .clientStart .enter => True
  | .clientStart (.wait _) => c.response.code ≠ .cannotStart
  | .reply => c.response.code = .cannotStart → V
  | _ => False

/-- **The snapshot of a process**: the `n` accounts it searches are there and stay. -/
structure Snapshots (V : Prop) (n : ℕ) (sh : ServerSession F) (c : Client F) : Prop where
  count : n ≤ sh.accountsNo
  absent : V ↔ Absent sh n c.request.message
  pc : c.pc.Snapshot V n c

/-- The accounts are added to, and their names stay. -/
private theorem Snapshots.change (h : Snapshots V n sh c) (hc : Change p sh sh')
    (hrequest : c'.request = c.request) (hpc : c'.pc.Snapshot V n c') : Snapshots V n sh' c' where
  count := h.count.trans hc.grows
  absent := by
    have hname : ∀ a < n, (sh'.accounts a).name = (sh.accounts a).name :=
      fun a ha => hc.name_of_lt (ha.trans_le h.count)
    rw [h.absent, hrequest]
    exact ⟨fun habsent => habsent.congr hname,
      fun habsent => habsent.congr fun a ha => (hname a ha).symm⟩
  pc := hpc

private theorem startSearch_snapshot (hr : r.Within n) (h : r.Knows sh n c.request.message)
    (hV : V ↔ Absent sh n c.request.message) :
    (startSearch c n r).pc.Snapshot V n (startSearch c n r) := by
  match r, hr, h with
  | .compare index j, _, _ => rfl
  | .result none, _, h => exact fun _ => hV.mpr h
  | .result (some index), _, h =>
    simp only [startSearch]
    split
    · rename_i heq
      exact fun _ => hV.mpr (h.2 heq)
    · trivial

/-- **A step of `client_start`** behind the snapshot. -/
theorem clientStart_snapshot {l : StartPc} (ht : IsName c.request.message) (hl : l.Holds sh c)
    (hk : l.Knows sh c.request.message) (hV : V ↔ Absent sh n c.request.message)
    (hpc : (Pc.clientStart l).Snapshot V n c)
    (hs : clientStart p sh c i l = some (sh', c', .silent)) : c'.pc.Snapshot V n c' := by
  generalize hout : Output.silent = out at hs
  cases clientStart_cases hs with
  | lock | count => exact hpc.elim
  | unlock m =>
    obtain rfl : m = n := hpc
    exact startSearch_snapshot (searchAccount_within m) (searchAccount_knows sh m _) hV
  | @search m _ _ _ hr =>
    obtain rfl : m = n := hpc
    exact startSearch_snapshot (searchStep_within hl.2.2 hr)
      (searchStep_knows ht hl.2.2 hk hr) hV
  | take | wait => trivial
  | busy => exact ResponseCode.noConfusion
  | enter => exact fun h => by cases h

/-- A silent step of the process itself. -/
private theorem client_snapshot (hN : Named p sh c) (hV : Snapshots V n sh c)
    (hc : Change p sh sh') (hs : client p sh c i = some (sh', c', .silent)) :
    Snapshots V n sh' c' := by
  have hholds := hN.assertion.holds
  have hknows := hN.knows
  have hpc := hV.pc
  cases client_cases hs with
  | clientStart l h hs =>
    rw [h] at hholds hknows hpc
    exact hV.change hc (clientStart_flow hs).1
      (clientStart_snapshot (hN.request (.inr hholds.1)) hholds.2 hknows hV.absent hpc hs)
  | retry _ hsh hsame =>
    subst hsh hsame
    exact hV
  | answer _ _ _ hout => cases hout
  | select h | listen h | check h | clientOpen _ h | clientDebit _ h | clientCredit _ h
  | balance _ h | setNotInSession _ _ h | timeOut _ h =>
    rw [h] at hpc
    exact hpc.elim

/-- **The answer to a START** is that there is no such account only if there was none when the
number of accounts was loaded. -/
theorem start_answer (hsendable : ∀ r, sendable r → r.HasName)
    (hr : Run (program sendable).machine (start sendable) tr s) {e₁ e₂ : Step F} {r : Response}
    (h : FirstAnswer tr e₁ e₂ r) (hcount : (stepper e₁).pc = .clientStart .count)
    (hcode : r.code = .cannotStart) :
    Absent e₁.pre.shared e₁.pre.shared.accountsNo (stepper e₁).request.message := by
  obtain ⟨tr₁, tr₂, tr₃, rfl, hp, hsilent, hout⟩ := h
  obtain ⟨hr₂, hocc₂, -⟩ := hr.split
  obtain ⟨-, hocc₁, -⟩ := hr₂.split
  set V := Absent e₁.pre.shared e₁.pre.shared.accountsNo (stepper e₁).request.message with hV
  have hJ : Snapshots V e₁.pre.shared.accountsNo e₂.pre.shared (e₂.pre.locals e₁.op.1) := by
    refine silent_since hsendable hr₂ hsilent ?_ (fun _ hN hV hc hs => client_snapshot hN hV hc hs)
      fun _ _ hV hc => hV.change hc rfl hV.pc
    have hs := hocc₁.localStep
    change client _ _ _ _ = _ at hs
    unfold client at hs
    rw [show (e₁.pre.locals e₁.op.1).pc = _ from hcount] at hs
    obtain ⟨hsh, hc, -⟩ := move_eq_some hs
    rw [← hsh, ← hc]
    exact ⟨le_rfl, Iff.rfl, rfl⟩
  have hs := hocc₂.localStep
  have hpc' := hJ.pc
  rw [hout, hp] at hs
  -- the first thing that is written is the response or the message of a wait
  rcases client_output hs with ⟨hpc, rfl, -⟩ | ⟨index, hpc, rfl⟩ | ⟨hpc, -⟩
  · rw [hpc] at hpc'
    exact hpc' hcode
  · rw [hpc] at hpc'
    exact absurd hcode hpc'
  · rw [hpc] at hpc'
    exact hpc'.elim

/-! ### The result -/

/-- The slot that `account_open` initialises at a point of `client_open`. -/
def OpenPc.slot : OpenPc → Option ℕ
  | .mutex index | .name index _ | .balance index | .session index => some index
  | _ => none

/-- What a step leaves of the accounts that are open: they stay, with their names, and their slots
are not initialised again. -/
structure KeepsAccounts (e : Step F) : Prop where
  count : e.pre.shared.accountsNo ≤ e.post.shared.accountsNo
  name : ∀ a < e.pre.shared.accountsNo,
    (e.post.shared.accounts a).name = (e.pre.shared.accounts a).name
  slot : ∀ l index, (stepper e).pc = .clientOpen l → l.slot = some index →
    e.pre.shared.accountsNo ≤ index

private theorem keepsAccounts_of_mem (hr : Run (program sendable).machine (start sendable) tr s)
    (he : e ∈ tr) : KeepsAccounts e := by
  obtain ⟨hI, hA, hocc⟩ := step_of_mem hr he
  have hc := (client_spec hI (hA e.op.1) hocc.legal.free hocc.localStep).1
  refine ⟨hc.grows, fun a ha => hc.name_of_lt ha, fun l index hpc hslot => ?_⟩
  have hholds := (hA e.op.1).holds
  rw [show (e.pre.locals e.op.1).pc = _ from hpc] at hholds
  cases l with
  | mutex | name | balance | session =>
    obtain rfl := Option.some.inj hslot
    exact hholds.2.2.1.ge
  | _ => cases hslot

/-- **The account of a START** is the only one with the name. -/
structure Binds (e : Step F) (a : ℕ) : Prop where
  request : (stepper e).request.code = .start
  opened : a < e.pre.shared.accountsNo
  name : nameText (e.pre.shared.accounts a).name = (stepper e).request.message
  unique : ∀ b < e.pre.shared.accountsNo,
    nameText (e.pre.shared.accounts b).name = (stepper e).request.message → b = a

private theorem binds_of_mem (hsendable : ∀ r, sendable r → r.HasName)
    (hr : Run (program sendable).machine (start sendable) tr s) (he : e ∈ tr)
    (hnone : (stepper e).clientAccount = none)
    (ha : (e.post.locals e.op.1).clientAccount = some a) : Binds e a := by
  obtain ⟨⟨tr₁, hr₁⟩, hocc⟩ := hr.occurs_of_mem he
  obtain ⟨⟨hI, hD⟩, hN⟩ := named_of_run hsendable hr₁
  have hN := hN e.op.1
  rcases client_binds hocc.localStep hnone with h | ⟨b, hpc, hb⟩
  · rw [h] at ha
    cases ha
  · obtain rfl := Option.some.inj (hb.symm.trans ha)
    have hholds := hN.assertion.holds
    have hknows := hN.knows
    rw [hpc] at hholds hknows
    obtain ⟨hcode, -, hopen⟩ := hholds
    exact ⟨hcode, hopen, hknows, fun a' ha' h => hD a' b ha' hopen (h.trans hknows.symm)⟩

/-- **Accounts are opened once.** In every reachable state, whether the lock is free or not, the
array is not overfull and the names of the open accounts are distinct. Open accounts stay as they
are named. An OPEN is answered with success exactly if, when its lock was taken, the name was absent
and there was room. A START binds the session to the only account of its name, and is refused only
if there was none when it took its snapshot of the number of accounts. -/
theorem accounts_opened
    (hr : Run (program Request.HasName).machine (start Request.HasName) tr s) :
    (s.shared.accountsNo ≤ maxAccount ∧ Distinct s.shared) ∧
    (∀ e ∈ tr, KeepsAccounts e) ∧
    (∀ e₁ e₂ r, FirstAnswer tr e₁ e₂ r → (stepper e₁).pc = .clientOpen .lock →
      (r.code = .success ↔
        Absent e₁.pre.shared e₁.pre.shared.accountsNo (stepper e₁).request.message ∧
          e₁.pre.shared.accountsNo < maxAccount)) ∧
    (∀ e ∈ tr, ∀ a, (stepper e).clientAccount = none →
      (e.post.locals e.op.1).clientAccount = some a → Binds e a) ∧
    ∀ e₁ e₂ r, FirstAnswer tr e₁ e₂ r → (stepper e₁).pc = .clientStart .count →
      r.code = .cannotStart →
        Absent e₁.pre.shared e₁.pre.shared.accountsNo (stepper e₁).request.message := by
  obtain ⟨⟨hI, hD⟩, -⟩ := named_of_run (fun _ h => h) hr
  exact ⟨⟨hI.room, hD⟩, fun e he => keepsAccounts_of_mem hr he,
    fun e₁ e₂ r h hlock => open_answer (fun _ h => h) hr h hlock,
    fun e he a hnone ha => binds_of_mem (fun _ h => h) hr he hnone ha,
    fun e₁ e₂ r h hcount hcode => start_answer (fun _ h => h) hr h hcount hcode⟩

theorem hasName_of_mem_visitRequests : ∀ r ∈ visitRequests, r.HasName := by
  have hname : IsName ['a'] := ⟨by decide, by decide⟩
  intro r hr hcode
  simp only [visitRequests, List.mem_cons, List.not_mem_nil, or_false] at hr
  rcases hr with rfl | rfl | rfl | rfl | rfl
  · exact hname
  · exact hname
  all_goals rcases hcode with hcode | hcode <;> cases hcode

/-- In the visit of two clients. -/
theorem accounts_opened_visit : Distinct visit.2.shared ∧ (∀ e ∈ visit.1, KeepsAccounts e) ∧
    ∀ e ∈ visit.1, ∀ a, (stepper e).clientAccount = none →
      (e.post.locals e.op.1).clientAccount = some a → Binds e a := by
  have hr : Run (program Request.HasName).machine (start Request.HasName) visit.1 visit.2 :=
    run_of_sendable hasName_of_mem_visitRequests (Machine.run_get visit_isSome)
  obtain ⟨⟨-, hD⟩, hkeeps, -, hbinds, -⟩ := accounts_opened hr
  exact ⟨hD, hkeeps, hbinds⟩

end Cs214.MultithreadedBanking

import Cs214.MultithreadedBanking.Steps

/-!
# Who owns an account

`Assertion p sh c` says what a process `p` may rely on at each point of its code: the session
mutexes it holds are the one of its account, `in_session` is set while it works in a session,
and what it has loaded from the shared memory under a lock is still what is there. `Change p`
lists what a step of `p` can do to the shared memory, with its right to do so: a field of an
account by the process that holds the account's session, a slot behind the last account and the
count by the process that holds the lock.

A change by one process disturbs no other process's assertion (`Change.stable`), and each step is
such a change and leads to the next assertion (`client_spec`), so the assertions of all processes
hold in every reachable state (`invariant_of_run`).
-/

namespace Cs214.MultithreadedBanking

open Tokenizer (CString nul)

set_option linter.unusedSectionVars false

variable {F : Type} [Arithmetic F] {p q a b : ℕ} {sh sh' : ServerSession F} {c c' : Client F}
  {i : Input} {out : Output} {sendable : Request → Prop} {tr : List (Step F)}
  {s : Configuration ℕ (ServerSession F) (Client F)}

/-! ### The assertions -/

/-- An account that nobody has used. -/
structure Account.Blank (x : Account F) : Prop where
  mutex : x.accountSessionMutex = none
  session : x.inSession = .notInSession
  balance : x.balance = Arithmetic.zero

/-- **The invariant of the shared memory.** -/
structure Invariant (sh : ServerSession F) : Prop where
  room : sh.accountsNo ≤ maxAccount
  blank : ∀ a, sh.accountsNo ≤ a → (sh.accounts a).Blank
  session : ∀ a, (sh.accounts a).inSession = .inSession →
    (sh.accounts a).accountSessionMutex ≠ none

/-- The points at which `in_session` of the client's account is set. -/
def Pc.inside : Pc F → Bool
  | .clientStart .enter | .setNotInSession _ .unlock => false
  | _ => true

/-- The points at which the process holds the lock of new accounts. -/
def Pc.locked : Pc F → Bool
  | .clientOpen .lock => false
  | .clientOpen _ | .clientStart .count | .clientStart (.unlock _) => true
  | _ => false

/-- What `client_open` knows at its points. -/
def OpenPc.Holds (sh : ServerSession F) : OpenPc → Prop
  | .lock | .full | .unlock _ => True
  | .count | .loadNo => sh.accountsNo < maxAccount
  | .search accountsNo index _ =>
    accountsNo = sh.accountsNo ∧ sh.accountsNo < maxAccount ∧ index < accountsNo
  | .found index => sh.accountsNo < maxAccount ∧ index ≤ sh.accountsNo
  | .mutex index | .name index _ | .balance index | .session index | .storeNo index =>
    index = sh.accountsNo ∧ sh.accountsNo < maxAccount

/-- What `client_start` knows at its points; it has an account only at the last. -/
def StartPc.Holds (sh : ServerSession F) (c : Client F) : StartPc → Prop
  | .lock | .count => c.clientAccount = none
  | .unlock accountsNo => c.clientAccount = none ∧ accountsNo ≤ sh.accountsNo
  | .search accountsNo index _ =>
    c.clientAccount = none ∧ accountsNo ≤ sh.accountsNo ∧ index < accountsNo
  | .trylock index | .wait index => c.clientAccount = none ∧ index < sh.accountsNo
  | .enter => ∃ a, c.clientAccount = some a

/-- What `account_debit` knows about the balance. -/
def DebitPc.Holds (amount balance : F) : DebitPc F → Prop
  | .test => True
  | .load => Arithmetic.negative (Arithmetic.sub balance amount) = false
  | .store loaded =>
    loaded = balance ∧ Arithmetic.negative (Arithmetic.sub balance amount) = false
  | .refused => Arithmetic.negative (Arithmetic.sub balance amount) = true

/-- What `account_credit` knows about the balance. -/
def CreditPc.Holds (balance : F) : CreditPc F → Prop
  | .load => True
  | .store loaded => loaded = balance

/-- The request a call of `set_not_in_session` answers. -/
def Ending.Answers (r : Request) : Ending → Prop
  | .finish => r.code = .finish
  | .exit => r.code = .exit
  | .disconnect | .timeOut => True

/-- In a session a credit is answered with success, and a debit is or finds the balance too
small. -/
def Client.Served (c : Client F) : Prop := c.clientAccount ≠ none →
  (c.request.code = .credit → c.response.code = .success) ∧
  (c.request.code = .debit → c.response.code = .success ∨ c.response.code = .balanceReachZero)

private theorem Client.served_of_none (h : c.clientAccount = none) :
    c.Served := fun hne => absurd h hne

private theorem Client.served_of_ne (hc : c.request.code ≠ .credit) (hd : c.request.code ≠ .debit) :
    c.Served := fun _ => ⟨fun h => absurd h hc, fun h => absurd h hd⟩

/-- **What a process knows at a point of its code.** -/
def Pc.Holds (sh : ServerSession F) (c : Client F) : Pc F → Prop
  | .select | .listen | .check | .exited => True
  | .reply => c.Served
  | .clientOpen l => c.request.code = .open_ ∧ c.clientAccount = none ∧ l.Holds sh
  | .clientStart l => c.request.code = .start ∧ l.Holds sh c
  | .clientDebit l => c.request.code = .debit ∧ ∃ a, c.clientAccount = some a ∧
      l.Holds (Arithmetic.amount c.request.message) (sh.accounts a).balance
  | .clientCredit l => c.request.code = .credit ∧ ∃ a, c.clientAccount = some a ∧
      l.Holds (sh.accounts a).balance
  | .balance _ => c.request.code = .balance ∧ ∃ a, c.clientAccount = some a
  | .setNotInSession ending _ => ending.Answers c.request ∧ ∃ a, c.clientAccount = some a
  | .timeOut => c.clientAccount = none

/-- **What a process may rely on.** -/
structure Assertion (p : ℕ) (sh : ServerSession F) (c : Client F) : Prop where
  mutex : ∀ a, (sh.accounts a).accountSessionMutex = some p ↔ c.clientAccount = some a
  opened : ∀ a, c.clientAccount = some a → a < sh.accountsNo
  session : ∀ a, c.clientAccount = some a →
    ((sh.accounts a).inSession = .inSession ↔ c.pc.inside = true)
  lock : sh.newAccountLockMutex = some p ↔ c.pc.locked = true
  holds : c.pc.Holds sh c

/-! ### What a step does to the shared memory -/

/-- **The changes a process can make**, with its right to make them. -/
inductive Change (p : ℕ) (sh : ServerSession F) : ServerSession F → Prop
  | none : Change p sh sh
  | lock (h : sh.newAccountLockMutex = none) :
      Change p sh { sh with newAccountLockMutex := some p }
  | unlock (h : sh.newAccountLockMutex = some p) :
      Change p sh { sh with newAccountLockMutex := none }
  | take (a : ℕ) (h : (sh.accounts a).accountSessionMutex = none) (ha : a < sh.accountsNo) :
      Change p sh (sh.modify a fun x => { x with accountSessionMutex := some p })
  | own (a : ℕ) (f : Account F → Account F) (h : (sh.accounts a).accountSessionMutex = some p)
      (hf : ∀ x, (f x).accountSessionMutex = x.accountSessionMutex)
      (hname : ∀ x, (f x).name = x.name) : Change p sh (sh.modify a f)
  | release (a : ℕ) (h : (sh.accounts a).accountSessionMutex = some p)
      (hs : (sh.accounts a).inSession ≠ .inSession) :
      Change p sh (sh.modify a fun x => { x with accountSessionMutex := none })
  | init (f : Account F → Account F) (h : sh.newAccountLockMutex = some p)
      (hf : ∀ x, x.Blank → (f x).Blank) : Change p sh (sh.modify sh.accountsNo f)
  | count (h : sh.newAccountLockMutex = some p) (ha : sh.accountsNo < maxAccount) :
      Change p sh { sh with accountsNo := sh.accountsNo + 1 }

/-- Whoever holds a session holds it on an open account. -/
private theorem Invariant.opened (hI : Invariant sh)
    (h : (sh.accounts a).accountSessionMutex ≠ none) : a < sh.accountsNo := by
  by_contra hle
  exact h (hI.blank a (not_lt.mp hle)).mutex

/-- A property of the accounts after one was modified. -/
theorem ServerSession.forall_modify {P : ℕ → Account F → Prop} {f : Account F → Account F}
    (hself : P a (f (sh.accounts a))) (hne : ∀ b, b ≠ a → P b (sh.accounts b)) :
    ∀ b, P b ((sh.modify a f).accounts b) := by
  intro b
  by_cases hb : b = a
  · rw [hb, sh.modify_accounts_self]
    exact hself
  · rw [sh.modify_accounts_of_ne a f hb]
    exact hne b hb

/-- The invariant after one account was modified. -/
private theorem Invariant.modify (hI : Invariant sh) {f : Account F → Account F}
    (hblank : sh.accountsNo ≤ a → (f (sh.accounts a)).Blank)
    (hsession : (f (sh.accounts a)).inSession = .inSession →
      (f (sh.accounts a)).accountSessionMutex ≠ none) : Invariant (sh.modify a f) where
  room := hI.room
  blank := ServerSession.forall_modify (P := fun b x => sh.accountsNo ≤ b → x.Blank) hblank
    fun b _ => hI.blank b
  session := ServerSession.forall_modify
    (P := fun _ x => x.inSession = .inSession → x.accountSessionMutex ≠ none) hsession
    fun b _ => hI.session b

/-- **Changes keep the invariant** of the shared memory. -/
theorem Change.invariant (hc : Change p sh sh') (hI : Invariant sh) : Invariant sh' := by
  cases hc with
  | none | lock | unlock => exact ⟨hI.room, hI.blank, hI.session⟩
  | take a h ha =>
    exact hI.modify (fun hle => absurd ha (not_lt.mpr hle)) fun _ => Option.some_ne_none p
  | own a f h hf hname =>
    have hsome : (sh.accounts a).accountSessionMutex ≠ Option.none := by simp [h]
    exact hI.modify (fun hle => absurd (hI.opened hsome) (not_lt.mpr hle)) fun _ => by rwa [hf]
  | release a h hs =>
    have hsome : (sh.accounts a).accountSessionMutex ≠ Option.none := by simp [h]
    exact hI.modify (fun hle => absurd (hI.opened hsome) (not_lt.mpr hle))
      fun hin => absurd hin hs
  | init f h hf =>
    have hblank := hf _ (hI.blank _ le_rfl)
    refine hI.modify (fun _ => hblank) fun hin => ?_
    rw [hblank.session] at hin
    cases hin
  | count h ha => exact ⟨ha, fun a hle => hI.blank a (Nat.le_of_succ_le hle), hI.session⟩

/-- **What a step of another process leaves to `q`**: its mutexes, its account, its lock, and
the number of accounts while it holds the lock. -/
structure Stable (q : ℕ) (sh sh' : ServerSession F) : Prop where
  mutex : ∀ a, (sh'.accounts a).accountSessionMutex = some q ↔
    (sh.accounts a).accountSessionMutex = some q
  account : ∀ a, (sh.accounts a).accountSessionMutex = some q → sh'.accounts a = sh.accounts a
  lock : sh'.newAccountLockMutex = some q ↔ sh.newAccountLockMutex = some q
  count : sh.newAccountLockMutex = some q → sh'.accountsNo = sh.accountsNo
  grows : sh.accountsNo ≤ sh'.accountsNo

/-- A modified account that `q` does not hold, before or after. -/
private theorem Stable.modify {f : Account F → Account F}
    (h : (sh.accounts a).accountSessionMutex ≠ some q)
    (h' : (f (sh.accounts a)).accountSessionMutex ≠ some q) : Stable q sh (sh.modify a f) where
  mutex := ServerSession.forall_modify (P := fun b x =>
    x.accountSessionMutex = some q ↔ (sh.accounts b).accountSessionMutex = some q)
    (iff_of_false h' h) fun _ _ => Iff.rfl
  account := ServerSession.forall_modify (P := fun b x =>
    (sh.accounts b).accountSessionMutex = some q → x = sh.accounts b)
    (fun heq => absurd heq h) fun _ _ _ => rfl
  lock := Iff.rfl
  count _ := rfl
  grows := le_rfl

/-- **A change by one process is no concern of another.** -/
theorem Change.stable (hc : Change p sh sh') (hI : Invariant sh) (hq : q ≠ p) :
    Stable q sh sh' := by
  have hpq : some p ≠ some q := fun heq => hq (Option.some.inj heq).symm
  cases hc with
  | none => exact ⟨fun _ => Iff.rfl, fun _ _ => rfl, Iff.rfl, fun _ => rfl, le_rfl⟩
  | lock h =>
    refine ⟨fun _ => Iff.rfl, fun _ _ => rfl, iff_of_false hpq ?_, fun _ => rfl, le_rfl⟩
    simp [h]
  | unlock h =>
    refine ⟨fun _ => Iff.rfl, fun _ _ => rfl, iff_of_false (by simp) ?_, fun _ => rfl, le_rfl⟩
    rwa [h]
  | take a h ha => exact .modify (by simp [h]) hpq
  | own a f h hf hname => exact .modify (by rwa [h]) (by rwa [hf, h])
  | release a h hs => exact .modify (by rwa [h]) (by simp)
  | init f h hf =>
    have hblank := hI.blank _ le_rfl
    exact .modify (by simp [hblank.mutex]) (by simp [(hf _ hblank).mutex])
  | count h ha =>
    refine ⟨fun _ => Iff.rfl, fun _ _ => rfl, Iff.rfl, fun heq => ?_, Nat.le_succ _⟩
    rw [h] at heq
    exact absurd heq hpq

/-- **What a process leaves of an account that is not its own**, though it may take it. -/
theorem Change.account_of_ne (hc : Change p sh sh') (hI : Invariant sh)
    (h : (sh.accounts a).accountSessionMutex ≠ some p) :
    (sh'.accounts a).balance = (sh.accounts a).balance ∧
      (sh'.accounts a).inSession = (sh.accounts a).inSession ∧
      ((sh'.accounts a).accountSessionMutex = some p →
        (sh.accounts a).accountSessionMutex = Option.none) := by
  cases hc with
  | none | lock | unlock | count => exact ⟨rfl, rfl, fun heq => absurd heq h⟩
  | take b hb _ =>
    by_cases hab : a = b
    · subst hab
      rw [sh.modify_accounts_self]
      exact ⟨rfl, rfl, fun _ => hb⟩
    · rw [sh.modify_accounts_of_ne b _ hab]
      exact ⟨rfl, rfl, fun heq => absurd heq h⟩
  | own b f hb | release b hb =>
    have hab : a ≠ b := fun hab => h (hab ▸ hb)
    rw [sh.modify_accounts_of_ne b _ hab]
    exact ⟨rfl, rfl, fun heq => absurd heq h⟩
  | init f _ hf =>
    by_cases hab : a = sh.accountsNo
    · subst hab
      have hblank := hI.blank _ le_rfl
      have hblank' := hf _ hblank
      rw [sh.modify_accounts_self]
      exact ⟨hblank'.balance.trans hblank.balance.symm, hblank'.session.trans hblank.session.symm,
        fun _ => hblank.mutex⟩
    · rw [sh.modify_accounts_of_ne _ _ hab]
      exact ⟨rfl, rfl, fun heq => absurd heq h⟩

/-- What `client_open` knows survives while it holds the lock. -/
private theorem OpenPc.Holds.stable {l : OpenPc} (hl : l.Holds sh)
    (h : sh'.accountsNo = sh.accountsNo) :
    l.Holds sh' := by
  unfold OpenPc.Holds at hl ⊢
  rwa [h]

/-- What `client_start` knows survives when accounts are opened. -/
private theorem StartPc.Holds.stable {l : StartPc} (hl : l.Holds sh c)
    (h : sh.accountsNo ≤ sh'.accountsNo) : l.Holds sh' c := by
  cases l <;> simp only [StartPc.Holds] at hl ⊢
  case lock | count | enter => exact hl
  case unlock => exact ⟨hl.1, hl.2.trans h⟩
  case search => exact ⟨hl.1, hl.2.1.trans h, hl.2.2⟩
  case trylock | wait => exact ⟨hl.1, hl.2.trans_le h⟩

/-- **The assertion of a process survives the steps of the others.** -/
theorem Assertion.stable (hA : Assertion q sh c) (hS : Stable q sh sh') :
    Assertion q sh' c := by
  have hsame : ∀ a, c.clientAccount = some a → sh'.accounts a = sh.accounts a :=
    fun a ha => hS.account a ((hA.mutex a).mpr ha)
  refine ⟨fun a => (hS.mutex a).trans (hA.mutex a), fun a ha => (hA.opened a ha).trans_le hS.grows,
    fun a ha => ?_, hS.lock.trans hA.lock, ?_⟩
  · rw [hsame a ha]
    exact hA.session a ha
  · have hlock := hA.lock
    have hholds := hA.holds
    generalize c.pc = pc at hlock hholds ⊢
    cases pc with
    | select | listen | check | reply | exited | timeOut | balance | setNotInSession =>
      exact hholds
    | clientOpen l =>
      obtain ⟨hcode, hnone, hl⟩ := hholds
      refine ⟨hcode, hnone, ?_⟩
      by_cases hlk : l = .lock
      · rw [hlk]
        trivial
      · exact hl.stable (hS.count (hlock.mpr (by cases l <;> first | rfl | exact absurd rfl hlk)))
    | clientStart l => exact ⟨hholds.1, hholds.2.stable hS.grows⟩
    | clientDebit l =>
      obtain ⟨hcode, a, ha, hl⟩ := hholds
      exact ⟨hcode, a, ha, by rwa [hsame a ha]⟩
    | clientCredit l =>
      obtain ⟨hcode, a, ha, hl⟩ := hholds
      exact ⟨hcode, a, ha, by rwa [hsame a ha]⟩

/-! ### The next assertion of the process that takes the step -/

/-- The assertion of a process without an account. -/
private theorem Assertion.ofNone (hnone : c.clientAccount = none)
    (hmutex : ∀ a, (sh.accounts a).accountSessionMutex ≠ some p)
    (hlock : sh.newAccountLockMutex = some p ↔ c.pc.locked = true) (hholds : c.pc.Holds sh c) :
    Assertion p sh c where
  mutex a := iff_of_false (hmutex a) (by simp [hnone])
  opened a ha := by simp [hnone] at ha
  session a ha := by simp [hnone] at ha
  lock := hlock
  holds := hholds

/-- A process without an account holds no session. -/
theorem Assertion.mutex_ne (hA : Assertion p sh c) (hnone : c.clientAccount = none) (a : ℕ) :
    (sh.accounts a).accountSessionMutex ≠ some p := by
  rw [ne_eq, hA.mutex, hnone]
  exact Option.some_ne_none a ∘ Eq.symm

/-- The assertion after a step that changes no account. -/
private theorem Assertion.next (hA : Assertion p sh c) (hacc : c'.clientAccount = c.clientAccount)
    (hin : ∀ a, c.clientAccount = some a → c'.pc.inside = c.pc.inside)
    (hlock : c'.pc.locked = c.pc.locked) (hholds : c'.pc.Holds sh c') : Assertion p sh c' where
  mutex a := by rw [hacc, hA.mutex]
  opened a ha := hA.opened a (hacc ▸ ha)
  session a ha := by rw [hin a (hacc ▸ ha), hA.session a (hacc ▸ ha)]
  lock := by rw [hlock, hA.lock]
  holds := hholds

/-- The assertion after a step that changes the client's own account. -/
private theorem Assertion.own (hA : Assertion p sh c) {f : Account F → Account F}
    (ha : c.clientAccount = some a) (hacc : c'.clientAccount = some a)
    (hf : ∀ x, (f x).accountSessionMutex = x.accountSessionMutex)
    (hin : (f (sh.accounts a)).inSession = .inSession ↔ c'.pc.inside = true)
    (hlock : c'.pc.locked = c.pc.locked) (hholds : c'.pc.Holds (sh.modify a f) c') :
    Assertion p (sh.modify a f) c' where
  mutex := ServerSession.forall_modify
    (P := fun b x => x.accountSessionMutex = some p ↔ c'.clientAccount = some b)
    (by rw [hf, hA.mutex, hacc, ha]) fun b _ => by rw [hA.mutex, hacc, ha]
  opened b hb := hA.opened b (by rw [ha, ← hacc, hb])
  session b hb := by
    obtain rfl : a = b := Option.some.inj (hacc.symm.trans hb)
    rw [sh.modify_accounts_self]
    exact hin
  lock := by rw [hlock, sh.modify_newAccountLockMutex, hA.lock]
  holds := hholds

/-- The assertion after the client's account was taken. -/
private theorem Assertion.take (hA : Assertion p sh c) (hnone : c.clientAccount = none)
    (hopen : a < sh.accountsNo) (hsession : (sh.accounts a).inSession ≠ .inSession)
    (hacc : c'.clientAccount = some a) (hin : c'.pc.inside = false)
    (hlock : c'.pc.locked = c.pc.locked) (hholds : c'.pc.Holds (sh.modify a fun x =>
      { x with accountSessionMutex := some p }) c') :
    Assertion p (sh.modify a fun x => { x with accountSessionMutex := some p }) c' where
  mutex := ServerSession.forall_modify
    (P := fun b x => x.accountSessionMutex = some p ↔ c'.clientAccount = some b)
    (iff_of_true rfl hacc) fun b hb => iff_of_false (hA.mutex_ne hnone b)
      fun heq => hb (Option.some.inj (heq.symm.trans hacc))
  opened b hb := by
    obtain rfl : a = b := Option.some.inj (hacc.symm.trans hb)
    exact hopen
  session b hb := by
    obtain rfl : a = b := Option.some.inj (hacc.symm.trans hb)
    rw [sh.modify_accounts_self]
    exact iff_of_false hsession (by simp [hin])
  lock := by rw [hlock, sh.modify_newAccountLockMutex, hA.lock]
  holds := hholds

/-- The assertion after the client's account was released. -/
private theorem Assertion.release (hA : Assertion p sh c) (ha : c.clientAccount = some a)
    (hnone : c'.clientAccount = none) (hlock : c'.pc.locked = c.pc.locked)
    (hholds : c'.pc.Holds (sh.modify a fun x => { x with accountSessionMutex := none }) c') :
    Assertion p (sh.modify a fun x => { x with accountSessionMutex := none }) c' := by
  refine .ofNone hnone ?_ (by rw [hlock, sh.modify_newAccountLockMutex, hA.lock]) hholds
  refine ServerSession.forall_modify (P := fun _ x => x.accountSessionMutex ≠ some p)
    (Option.some_ne_none p ∘ Eq.symm) fun b hb heq => hb ?_
  exact Option.some.inj (((hA.mutex b).mp heq).symm.trans ha)

/-- A result the search of `n` accounts can have. -/
def Search.Within (n : ℕ) : Search → Prop
  | .compare index _ => index < n
  | .result none => n = 0
  | .result (some index) => index ≤ n

private theorem searchFrom_within {n index : ℕ} (h : index ≤ n) :
    (searchFrom n index).Within n := by
  unfold searchFrom
  split
  · assumption
  · exact h

theorem searchAccount_within (n : ℕ) : (searchAccount n).Within n := by
  unfold searchAccount
  split
  · assumption
  · exact searchFrom_within n.zero_le

/-- The search stays within the accounts it was given. -/
theorem searchStep_within {n index j : ℕ} {name : CString} {r : Search} (h : index < n)
    (hs : searchStep sh n index j name = some r) : r.Within n := by
  simp only [searchStep, Option.bind_eq_bind, Option.bind_eq_some_iff] at hs
  obtain ⟨x, -, hs⟩ := hs
  split_ifs at hs
  · obtain rfl := Option.some.inj hs
    exact searchFrom_within h
  · obtain rfl := Option.some.inj hs
    exact h.le
  · obtain rfl := Option.some.inj hs
    exact h

/-- Inside `client_open` a process has no account, and from its first step to its last the lock. -/
private theorem Assertion.atOpen {l : OpenPc} (hpc : c.pc = .clientOpen l)
    (hcode : c.request.code = .open_) (hnone : c.clientAccount = none)
    (hmutex : ∀ a, (sh.accounts a).accountSessionMutex ≠ some p)
    (hlock : sh.newAccountLockMutex = some p) (hne : l ≠ .lock) (hl : l.Holds sh) :
    Assertion p sh c := by
  refine .ofNone hnone hmutex (iff_of_true hlock ?_) ?_
  · rw [hpc]
    cases l <;> first | rfl | exact absurd rfl hne
  · rw [hpc]
    exact ⟨hcode, hnone, hl⟩

/-- What the search of `client_open` leads to. -/
private theorem openSearch_spec {n : ℕ} {r : Search} (hr : r.Within n) (hn : n = sh.accountsNo)
    (hroom : sh.accountsNo < maxAccount) :
    ∃ l, openSearch c n r = c.goto (.clientOpen l) ∧ l ≠ .lock ∧ l.Holds sh := by
  match r, hr with
  | .compare index j, hr => exact ⟨_, rfl, nofun, hn, hroom, hr⟩
  | .result none, hr => exact ⟨_, rfl, nofun, hr.symm.trans hn, hroom⟩
  | .result (some index), hr => exact ⟨_, rfl, nofun, hroom, hn ▸ hr⟩

/-- A store into the next slot keeps it blank, so it is no account of any process. -/
private theorem openStore_spec {f : Account F → Account F} {l : OpenPc} (hI : Invariant sh)
    (hlock : sh.newAccountLockMutex = some p) (hf : ∀ x, x.Blank → (f x).Blank)
    (hcode : c.request.code = .open_) (hnone : c.clientAccount = none)
    (hmutex : ∀ a, (sh.accounts a).accountSessionMutex ≠ some p) (hne : l ≠ .lock)
    (hl : l.Holds sh) : Change p sh (sh.modify sh.accountsNo f) ∧
      Assertion p (sh.modify sh.accountsNo f) (c.goto (.clientOpen l)) := by
  refine ⟨.init f hlock hf, .atOpen rfl hcode hnone ?_ hlock hne (hl.stable rfl)⟩
  refine ServerSession.forall_modify (P := fun _ x => x.accountSessionMutex ≠ some p) ?_
    fun b _ => hmutex b
  rw [(hf _ (hI.blank _ le_rfl)).mutex]
  exact Option.some_ne_none p ∘ Eq.symm

/-- **A step of `client_open`.** -/
theorem clientOpen_spec {l : OpenPc} (hI : Invariant sh) (hA : Assertion p sh c)
    (hpc : c.pc = .clientOpen l) (hfree : l = .lock → sh.newAccountLockMutex = none)
    (hs : clientOpen p sh c l = some (sh', c', out)) : Change p sh sh' ∧ Assertion p sh' c' := by
  have hlocked := hA.lock
  have hholds := hA.holds
  rw [hpc] at hlocked hholds
  obtain ⟨hcode, hnone, hl⟩ := hholds
  have hmutex := hA.mutex_ne hnone
  have hstore {f : Account F → Account F} {l'} (hlock : sh.newAccountLockMutex = some p)
      (hf : ∀ x, x.Blank → (f x).Blank) (hne : l' ≠ .lock) (hl' : l'.Holds sh) :=
    openStore_spec (l := l') hI hlock hf hcode hnone hmutex hne hl'
  cases clientOpen_cases hs with
  | lock => exact ⟨.lock (hfree rfl), .atOpen rfl hcode hnone hmutex rfl nofun trivial⟩
  | full =>
    exact ⟨.none, .atOpen rfl hcode hnone hmutex (hlocked.mpr rfl) nofun trivial⟩
  | room hroom =>
    -- from here on there is room, as long as the lock is held
    exact ⟨.none, .atOpen rfl hcode hnone hmutex (hlocked.mpr rfl) nofun
      (lt_of_le_of_ne hI.room hroom)⟩
  | count =>
    obtain ⟨l', heq, hne, hl'⟩ := openSearch_spec (c := c) (searchAccount_within _) rfl hl
    rw [heq]
    exact ⟨.none, .atOpen rfl hcode hnone hmutex (hlocked.mpr rfl) hne hl'⟩
  | search hr =>
    obtain ⟨hn, hroom, hindex⟩ := hl
    obtain ⟨l', heq, hne, hl'⟩ := openSearch_spec (c := c) (searchStep_within hindex hr) hn hroom
    rw [heq]
    exact ⟨.none, .atOpen rfl hcode hnone hmutex (hlocked.mpr rfl) hne hl'⟩
  | present =>
    exact ⟨.none, .atOpen rfl hcode hnone hmutex (hlocked.mpr rfl) nofun trivial⟩
  | absent hindex =>
    -- a search that stops behind the accounts gives the slot of the new one
    obtain ⟨hroom, hle⟩ := hl
    exact ⟨.none, .atOpen rfl hcode hnone hmutex (hlocked.mpr rfl) nofun
      ⟨by omega, hroom⟩⟩
  | mutex index =>
    obtain ⟨rfl, hroom⟩ := hl
    exact hstore (hlocked.mpr rfl) (fun x hx => ⟨rfl, hx.session, hx.balance⟩)
      nofun ⟨rfl, hroom⟩
  | name index j =>
    obtain ⟨rfl, hroom⟩ := hl
    refine hstore (hlocked.mpr rfl) (fun x hx => ⟨hx.mutex, hx.session, hx.balance⟩) ?_ ?_
    · split <;> exact nofun
    · split <;> exact ⟨rfl, hroom⟩
  | balance index =>
    obtain ⟨rfl, hroom⟩ := hl
    exact hstore (hlocked.mpr rfl) (fun x hx => ⟨hx.mutex, hx.session, rfl⟩)
      nofun ⟨rfl, hroom⟩
  | session index =>
    obtain ⟨rfl, hroom⟩ := hl
    exact hstore (hlocked.mpr rfl) (fun x hx => ⟨hx.mutex, rfl, hx.balance⟩)
      nofun hroom
  | loadNo =>
    exact ⟨.none, .atOpen rfl hcode hnone hmutex (hlocked.mpr rfl) nofun ⟨rfl, hl⟩⟩
  | storeNo n =>
    obtain ⟨rfl, hroom⟩ := hl
    have hlock := hlocked.mpr rfl
    exact ⟨.count hlock hroom, .atOpen rfl hcode hnone hmutex hlock nofun trivial⟩
  | refused | opened =>
    exact ⟨.unlock (hlocked.mpr rfl), .ofNone hnone hmutex
      (iff_of_false (by simp) Bool.false_ne_true) (Client.served_of_none hnone)⟩

/-- What the search of `client_start` leads to. -/
private theorem startSearch_spec {n : ℕ} {r : Search} (hr : r.Within n) (hn : n ≤ sh.accountsNo)
    (hcode : c.request.code = .start) (hnone : c.clientAccount = none) :
    (startSearch c n r).clientAccount = none ∧ (startSearch c n r).pc.locked = false ∧
      (startSearch c n r).pc.Holds sh (startSearch c n r) := by
  match r, hr with
  | .compare index j, hr => exact ⟨hnone, rfl, hcode, hnone, hn, hr⟩
  | .result none, hr => exact ⟨hnone, rfl, Client.served_of_none hnone⟩
  | .result (some index), hr =>
    simp only [startSearch]
    split
    · exact ⟨hnone, rfl, Client.served_of_none hnone⟩
    · rename_i hne
      exact ⟨hnone, rfl, hcode, hnone, (lt_of_le_of_ne hr hne).trans_le hn⟩

/-- **A step of `client_start`.** -/
theorem clientStart_spec {l : StartPc} (hI : Invariant sh) (hA : Assertion p sh c)
    (hpc : c.pc = .clientStart l) (hfree : l = .lock → sh.newAccountLockMutex = none)
    (hs : clientStart p sh c i l = some (sh', c', out)) : Change p sh sh' ∧ Assertion p sh' c' := by
  have hlocked := hA.lock
  have hholds := hA.holds
  rw [hpc] at hlocked hholds
  obtain ⟨hcode, hl⟩ := hholds
  cases clientStart_cases hs with
  | lock =>
    exact ⟨.lock (hfree rfl), .ofNone hl (hA.mutex_ne hl) (iff_of_true rfl rfl) ⟨hcode, hl⟩⟩
  | count =>
    exact ⟨.none, .ofNone hl (hA.mutex_ne hl) (iff_of_true (hlocked.mpr rfl) rfl)
      ⟨hcode, hl, le_rfl⟩⟩
  | unlock n =>
    obtain ⟨hnone, hn⟩ := hl
    obtain ⟨hnone', hpc', hholds'⟩ := startSearch_spec (searchAccount_within n)
      (show n ≤ ({ sh with newAccountLockMutex := none } : ServerSession F).accountsNo from hn)
      hcode hnone
    exact ⟨.unlock (hlocked.mpr rfl), .ofNone hnone' (hA.mutex_ne hnone)
      (iff_of_false (by simp) (by simp [hpc'])) hholds'⟩
  | search hr =>
    obtain ⟨hnone, hn, hindex⟩ := hl
    obtain ⟨hnone', hpc', hholds'⟩ := startSearch_spec (searchStep_within hindex hr) hn hcode hnone
    exact ⟨.none, .ofNone hnone' (hA.mutex_ne hnone)
      (iff_of_false (by simp [hlocked, Pc.locked]) (by simp [hpc'])) hholds'⟩
  | take htaken =>
    -- nobody had the session, so the flag is not set
    obtain ⟨hnone, hindex⟩ := hl
    exact ⟨.take _ htaken hindex, hA.take hnone hindex (fun hin => hI.session _ hin htaken)
      rfl rfl (by rw [hpc]; rfl) ⟨hcode, _, rfl⟩⟩
  | busy | wait =>
    obtain ⟨hnone, hindex⟩ := hl
    exact ⟨.none, .ofNone hnone (hA.mutex_ne hnone)
      (iff_of_false (by simp [hlocked, Pc.locked]) Bool.false_ne_true) ⟨hcode, hnone, hindex⟩⟩
  | enter ha =>
    exact ⟨.own _ _ ((hA.mutex _).mpr ha) (fun _ => rfl) fun _ => rfl,
      hA.own ha ha (fun _ => rfl) (iff_of_true rfl rfl) (by rw [hpc]; rfl)
        (Client.served_of_ne (by simp [Client.respond, hcode]) (by simp [Client.respond, hcode]))⟩

/-! ### The steps in a session -/

/-- An access to the client's own account. -/
theorem ownAccount {β : Type} {f : ℕ → Account F → Option β} {r : β}
    (ha : c.clientAccount = some a)
    (hs : (c.clientAccount.bind fun index => (sh.account? index).bind (f index)) = some r) :
    f a (sh.accounts a) = some r := by
  rw [ha, Option.bind_some, Option.bind_eq_some_iff] at hs
  obtain ⟨x, hx, hs⟩ := hs
  rwa [account?_eq_some hx]

/-- The assertion after a step in a session that changes no account. -/
private theorem Assertion.stay (hA : Assertion p sh c) (hacc : c'.clientAccount = c.clientAccount)
    (hin : c'.pc.inside = c.pc.inside) (hlock : c'.pc.locked = c.pc.locked)
    (hholds : c'.pc.Holds sh c') : Change p sh sh ∧ Assertion p sh c' :=
  ⟨.none, hA.next hacc (fun _ _ => hin) hlock hholds⟩

/-- **A step of `client_debit`.** -/
theorem clientDebit_spec {l : DebitPc F} (hA : Assertion p sh c) (hpc : c.pc = .clientDebit l)
    (hs : clientDebit sh c l = some (sh', c', out)) : Change p sh sh' ∧ Assertion p sh' c' := by
  have hholds := hA.holds
  have hmutex := hA.mutex
  rw [hpc] at hholds
  obtain ⟨hcode, a, ha, hl⟩ := hholds
  have hs := ownAccount ha hs
  have hin : c.pc.inside = true := by rw [hpc]; rfl
  have hlock : c.pc.locked = false := by rw [hpc]; rfl
  cases l with
  | test =>
    dsimp only at hs
    split at hs
    · rename_i hlt
      obtain ⟨rfl, rfl, -⟩ := move_eq_some hs
      exact hA.stay rfl hin.symm hlock.symm ⟨hcode, a, ha, hlt⟩
    · rename_i hge
      obtain ⟨rfl, rfl, -⟩ := move_eq_some hs
      exact hA.stay rfl hin.symm hlock.symm ⟨hcode, a, ha, Bool.eq_false_of_not_eq_true hge⟩
  | load =>
    obtain ⟨rfl, rfl, -⟩ := move_eq_some hs
    exact hA.stay rfl hin.symm hlock.symm ⟨hcode, a, ha, rfl, hl⟩
  | store balance =>
    obtain ⟨rfl, rfl, -⟩ := move_eq_some hs
    exact ⟨.own a _ ((hmutex a).mpr ha) (fun _ => rfl) fun _ => rfl,
      hA.own ha ha (fun _ => rfl) (by rw [hA.session a ha, hin]; rfl) hlock.symm
        fun _ => ⟨fun _ => rfl, fun _ => .inl rfl⟩⟩
  | refused =>
    obtain ⟨rfl, rfl, -⟩ := move_eq_some hs
    exact hA.stay rfl hin.symm hlock.symm
      fun _ => ⟨fun h => absurd (h.symm.trans hcode) RequestCode.noConfusion, fun _ => .inr rfl⟩

/-- **A step of `client_credit`.** -/
theorem clientCredit_spec {l : CreditPc F} (hA : Assertion p sh c) (hpc : c.pc = .clientCredit l)
    (hs : clientCredit sh c l = some (sh', c', out)) : Change p sh sh' ∧ Assertion p sh' c' := by
  have hholds := hA.holds
  have hmutex := hA.mutex
  rw [hpc] at hholds
  obtain ⟨hcode, a, ha, hl⟩ := hholds
  have hs := ownAccount ha hs
  have hin : c.pc.inside = true := by rw [hpc]; rfl
  have hlock : c.pc.locked = false := by rw [hpc]; rfl
  cases l with
  | load =>
    obtain ⟨rfl, rfl, -⟩ := move_eq_some hs
    exact hA.stay rfl hin.symm hlock.symm ⟨hcode, a, ha, rfl⟩
  | store balance =>
    obtain ⟨rfl, rfl, -⟩ := move_eq_some hs
    exact ⟨.own a _ ((hmutex a).mpr ha) (fun _ => rfl) fun _ => rfl,
      hA.own ha ha (fun _ => rfl) (by rw [hA.session a ha, hin]; rfl) hlock.symm
        fun _ => ⟨fun _ => rfl, fun _ => .inl rfl⟩⟩

/-- **A step of the case `BALANCE`.** -/
theorem clientBalance_spec {l : BalancePc F} (hA : Assertion p sh c) (hpc : c.pc = .balance l)
    (hs : clientBalance sh c l = some (sh', c', out)) :
    Change p sh sh' ∧ Assertion p sh' c' := by
  have hholds := hA.holds
  rw [hpc] at hholds
  obtain ⟨hcode, a, ha⟩ := hholds
  have hs := ownAccount ha hs
  have hin : c.pc.inside = true := by rw [hpc]; rfl
  have hlock : c.pc.locked = false := by rw [hpc]; rfl
  cases l with
  | load =>
    obtain ⟨rfl, rfl, -⟩ := move_eq_some hs
    exact hA.stay rfl hin.symm hlock.symm ⟨hcode, a, ha⟩
  | name balance =>
    obtain ⟨rfl, rfl, -⟩ := move_eq_some hs
    exact hA.stay rfl hin.symm hlock.symm
      (Client.served_of_ne (by simp [Client.respond, hcode]) (by simp [Client.respond, hcode]))

/-- Behind a session the process is at a point without an account. -/
theorem afterSession_spec (sh : ServerSession F) (hnone : c.clientAccount = none)
    (ending : Ending) :
    (afterSession c ending).clientAccount = none ∧ (afterSession c ending).pc.locked = false ∧
      (afterSession c ending).pc.Holds sh (afterSession c ending) := by
  cases ending with
  | disconnect => exact ⟨hnone, rfl, trivial⟩
  | finish | exit => exact ⟨hnone, rfl, Client.served_of_none hnone⟩
  | timeOut => exact ⟨hnone, rfl, hnone⟩

/-- **A step of `set_not_in_session`.** -/
theorem setNotInSession_spec {ending : Ending} {l : EndPc} (hA : Assertion p sh c)
    (hpc : c.pc = .setNotInSession ending l)
    (hs : setNotInSession sh c ending l = some (sh', c', out)) :
    Change p sh sh' ∧ Assertion p sh' c' := by
  have hholds := hA.holds
  have hmutex := hA.mutex
  rw [hpc] at hholds
  obtain ⟨hcode, a, ha⟩ := hholds
  have hs := ownAccount ha hs
  have hlock : c.pc.locked = false := by rw [hpc]; rfl
  cases l with
  | store =>
    obtain ⟨rfl, rfl, -⟩ := move_eq_some hs
    exact ⟨.own a _ ((hmutex a).mpr ha) (fun _ => rfl) fun _ => rfl,
      hA.own ha ha (fun _ => rfl) (iff_of_false InSession.noConfusion Bool.false_ne_true)
        hlock.symm ⟨hcode, a, ha⟩⟩
  | unlock =>
    obtain ⟨rfl, rfl, -⟩ := move_eq_some hs
    obtain ⟨hnone', hlock', hholds'⟩ :=
      afterSession_spec _ (c := { c with clientAccount := none }) rfl ending
    refine ⟨.release a ((hmutex a).mpr ha) ?_, hA.release ha hnone' (by rw [hlock', hlock]) hholds'⟩
    rw [ne_eq, hA.session a ha, hpc]
    exact Bool.false_ne_true

/-! ### The loop of `client()` -/

/-- A session is closed from a point of the loop. -/
private theorem endSession_spec (hA : Assertion p sh c) (hin : c.pc.inside = true)
    (hlock : c.pc.locked = false) {ending : Ending} (hcode : ending.Answers c.request) :
    Change p sh sh ∧ Assertion p sh (endSession c ending) := by
  unfold endSession
  split
  · rename_i hnone
    obtain ⟨hnone', hlock', hholds'⟩ := afterSession_spec _ hnone ending
    refine ⟨.none, .ofNone hnone' (hA.mutex_ne hnone) ?_ hholds'⟩
    rw [hA.lock, hlock, hlock']
  · rename_i hsome
    exact hA.stay rfl hin.symm hlock.symm ⟨hcode, Option.ne_none_iff_exists'.mp hsome⟩

/-- The switch for a client without a session. -/
private theorem outOfSession_spec (hA : Assertion p sh c) (hnone : c.clientAccount = none)
    (hlock : c.pc.locked = false) : Change p sh sh ∧ Assertion p sh (outOfSession c) := by
  have hmutex := hA.mutex_ne hnone
  have hout : sh.newAccountLockMutex ≠ some p := by simp [hA.lock, hlock]
  refine ⟨.none, ?_⟩
  unfold outOfSession
  split
  case h_1 hcode =>
    exact .ofNone hnone hmutex (iff_of_false hout Bool.false_ne_true) ⟨hcode, hnone, trivial⟩
  case h_2 hcode =>
    exact .ofNone hnone hmutex (iff_of_false hout Bool.false_ne_true) ⟨hcode, hnone⟩
  case h_3 | h_4 =>
    exact .ofNone hnone hmutex (iff_of_false hout Bool.false_ne_true)
      (Client.served_of_none hnone)

/-- The switch for a client in session. -/
private theorem inSession_spec (hA : Assertion p sh c) (ha : c.clientAccount = some a)
    (hin : c.pc.inside = true) (hlock : c.pc.locked = false) :
    Change p sh sh ∧ Assertion p sh (inSession c) := by
  unfold inSession
  split
  case h_3 hcode => exact hA.stay rfl hin.symm hlock.symm ⟨hcode, a, ha, trivial⟩
  case h_4 hcode => exact hA.stay rfl hin.symm hlock.symm ⟨hcode, a, ha, trivial⟩
  case h_5 hcode => exact hA.stay rfl hin.symm hlock.symm ⟨hcode, a, ha⟩
  case h_6 hcode => exact hA.stay rfl hin.symm hlock.symm ⟨hcode, a, ha⟩
  case h_7 hcode => exact hA.stay rfl hin.symm hlock.symm ⟨hcode, a, ha⟩
  case h_1 hcode | h_2 hcode =>
    exact hA.stay rfl hin.symm hlock.symm
      (Client.served_of_ne (by simp [Client.respond, hcode]) (by simp [Client.respond, hcode]))
  case h_8 hdebit hcredit _ _ _ =>
    exact hA.stay rfl hin.symm hlock.symm (Client.served_of_ne hcredit hdebit)

/-- **A test of the session**: a client with an account is in session. -/
theorem check_spec (hA : Assertion p sh c) (hpc : c.pc = .check)
    (hs : check sh c = some (sh', c', out)) : Change p sh sh' ∧ Assertion p sh' c' := by
  have hin : c.pc.inside = true := by rw [hpc]; rfl
  have hlock : c.pc.locked = false := by rw [hpc]; rfl
  rcases ha : c.clientAccount with _ | a
  · simp only [check, ha] at hs
    obtain ⟨rfl, rfl, -⟩ := move_eq_some hs
    exact outOfSession_spec hA ha hlock
  · simp only [check, ha, Option.bind_eq_bind, Option.bind_eq_some_iff] at hs
    obtain ⟨x, hx, hs⟩ := hs
    obtain rfl := account?_eq_some hx
    rw [if_pos ((hA.session a ha).mpr hin)] at hs
    obtain ⟨rfl, rfl, -⟩ := move_eq_some hs
    exact inSession_spec hA ha hin hlock

/-- **A step of a process** is one of the changes it has a right to, and leads to the next
assertion. -/
theorem client_spec (hI : Invariant sh) (hA : Assertion p sh c)
    (hfree : c.pc.locks = true → sh.newAccountLockMutex = none)
    (hs : client p sh c i = some (sh', c', out)) : Change p sh sh' ∧ Assertion p sh' c' := by
  cases client_cases hs with
  | select hpc _ hsh hc =>
    subst hsh hc
    unfold afterSelect
    split_ifs
    · exact hA.stay rfl (by rw [hpc]; rfl) (by rw [hpc]; rfl) trivial
    · exact endSession_spec hA (by rw [hpc]; rfl) (by rw [hpc]; rfl) trivial
    · exact hA.stay rfl (by rw [hpc]; rfl) (by rw [hpc]; rfl) trivial
  | listen hpc _ hsh hc =>
    subst hsh hc
    unfold afterRead
    split_ifs
    · exact endSession_spec hA (by rw [hpc]; rfl) (by rw [hpc]; rfl) trivial
    · exact hA.stay rfl (by rw [hpc]; rfl) (by rw [hpc]; rfl) trivial
  | check hpc hs => exact check_spec hA hpc hs
  | clientOpen l hpc hs =>
    exact clientOpen_spec hI hA hpc (fun hl => hfree (by rw [hpc, hl]; rfl)) hs
  | clientStart l hpc hs =>
    exact clientStart_spec hI hA hpc (fun hl => hfree (by rw [hpc, hl]; rfl)) hs
  | clientDebit l hpc hs => exact clientDebit_spec hA hpc hs
  | clientCredit l hpc hs => exact clientCredit_spec hA hpc hs
  | balance l hpc hs => exact clientBalance_spec hA hpc hs
  | setNotInSession ending l hpc hs => exact setNotInSession_spec hA hpc hs
  | retry hpc hsh hc =>
    subst hsh hc
    exact ⟨.none, hA⟩
  | answer hpc hsh hc =>
    subst hsh hc
    split
    · exact hA.stay rfl (by rw [hpc]; rfl) (by rw [hpc]; rfl) trivial
    · exact hA.stay rfl (by rw [hpc]; rfl) (by rw [hpc]; rfl) trivial
  | timeOut r hpc _ hsh hc =>
    subst hsh hc
    exact hA.stay rfl (by rw [hpc]; rfl) (by rw [hpc]; rfl) trivial

/-! ### Every reachable state -/

theorem invariant_init : Invariant (initSessionSharedMem (F := F)) where
  room := Nat.zero_le _
  blank _ _ := ⟨rfl, rfl, rfl⟩
  session _ h := by cases h

theorem assertion_init (p : ℕ) : Assertion p (initSessionSharedMem (F := F)) .init :=
  .ofNone rfl (fun _ => Option.some_ne_none p ∘ Eq.symm)
    (iff_of_false (Option.some_ne_none p ∘ Eq.symm) Bool.false_ne_true) trivial

/-- **The assertions of all processes hold in every reachable state.** -/
theorem invariant_of_run (hr : Run (program sendable).machine (start sendable) tr s) :
    Invariant s.shared ∧ ∀ p, Assertion p s.shared (s.locals p) := by
  refine hr.relyGuarantee (R := Change) invariant_init assertion_init ?_ ?_
  · intro p sh c i sh' c' out hI hA hen hs
    obtain ⟨hc, hA'⟩ := client_spec hI hA hen.free hs
    exact ⟨hc.invariant hI, hA', hc⟩
  · intro p q sh sh' c hq hI hA hc
    exact hA.stable (hc.stable hI hq)

/-- What holds around a step of a run. -/
theorem step_of_mem (hr : Run (program sendable).machine (start sendable) tr s) {e : Step F}
    (he : e ∈ tr) : Invariant e.pre.shared ∧ (∀ p, Assertion p e.pre.shared (e.pre.locals p)) ∧
      e.Occurs (program sendable).machine := by
  obtain ⟨⟨tr₁, h₁⟩, hocc⟩ := hr.occurs_of_mem he
  obtain ⟨hI, hA⟩ := invariant_of_run h₁
  exact ⟨hI, hA, hocc⟩

end Cs214.MultithreadedBanking

import Cs214.MultithreadedBanking.Flow
import Mathlib.Algebra.BigOperators.Group.List.Basic
import Mathlib.Tactic.Linarith

/-!
# The balances

A credit and a debit load and store the balance in separate steps and no lock is taken around
them; that no update is lost rests on the session of the account alone. `Transaction` is the
inversion of a step of a process with an account: it applies the credit or the debit it has been
asked for, or it leaves the balance as it was. The balance of an account is then what was
answered, and what its session has applied and not yet answered (`ledger_of_run`). Amounts are
exact here.

`balances_accounted` is the result, with the answers of a run as the record of what was applied.
-/

namespace Cs214.MultithreadedBanking

open Tokenizer (tkCreate banking)

variable {p a : ℕ} {sh sh' : ServerSession ℚ} {c c' : Client ℚ} {i : Input} {out : Output}
  {sendable : Request → Prop} {tr : List (Step ℚ)}
  {s : Configuration ℕ (ServerSession ℚ) (Client ℚ)}

/-! ### What has been asked for and answered -/

/-- The amount of the request. -/
def Client.amount (c : Client ℚ) : ℚ := atof c.request.message

/-- What the request adds to a balance. -/
def Client.change (c : Client ℚ) : ℚ :=
  match c.request.code with
  | .credit => c.amount
  | .debit => -c.amount
  | _ => 0

/-- The process that takes a step, before the step. -/
def stepper {F : Type} (e : Step F) : Client F := e.pre.locals e.op.1

/-- The amount of a request with the code on the account, if the step answers it with success. -/
def answered (code : RequestCode) (a : ℕ) (e : Step ℚ) : ℚ :=
  match e.out with
  | .silent => 0
  | .wrote r =>
    if r.code = .success ∧ (stepper e).request.code = code ∧
      (stepper e).clientAccount = some a then (stepper e).amount else 0

/-- **The credits of an account** in a run. -/
def credited (a : ℕ) (tr : List (Step ℚ)) : ℚ := (tr.map (answered .credit a)).sum

/-- **The debits of an account** in a run that were answered with success. -/
def debited (a : ℕ) (tr : List (Step ℚ)) : ℚ := (tr.map (answered .debit a)).sum

/-- The points between the reading of a credit or debit and its answer. -/
def Pc.serving : Pc ℚ → Bool
  | .check | .clientDebit _ | .clientCredit _ | .reply => true
  | _ => false

/-- **A credit or a debit is in progress.** -/
def Client.Transacting (c : Client ℚ) : Prop :=
  (c.request.code = .credit ∨ c.request.code = .debit) ∧ c.pc.serving = true

/-- What was applied to the account and is not yet answered. -/
def Client.pending (c : Client ℚ) (a : ℕ) : ℚ :=
  if c.pc = .reply ∧ c.clientAccount = some a ∧ c.response.code = .success then c.change else 0

/-- What an output answers on the account. -/
def Client.settles (c : Client ℚ) (a : ℕ) : Output → ℚ
  | .silent => 0
  | .wrote r => if r.code = .success ∧ c.clientAccount = some a then c.change else 0

private theorem pending_of_pc (h : c.pc ≠ .reply) : c.pending a = 0 := if_neg fun h' => h h'.1

private theorem pending_of_change (h : c.change = 0) :
    c.pending a = 0 := by simp [Client.pending, h]

private theorem pending_of_account (h : c.clientAccount ≠ some a) : c.pending a = 0 :=
  if_neg fun h' => h h'.2.1

/-- What a step answers is a credit or a debit. -/
private theorem settles_eq (e : Step ℚ) : (stepper e).settles a e.out
    = answered .credit a e - answered .debit a e := by
  unfold Client.settles answered Client.change
  rcases e.out with _ | r
  · simp
  · by_cases h : r.code = .success ∧ (stepper e).clientAccount = some a
    · rcases hcode : (stepper e).request.code <;> simp [h]
    · have hno : ∀ code, ¬(r.code = .success ∧ (stepper e).request.code = code ∧
          (stepper e).clientAccount = some a) := fun code h' => h ⟨h'.1, h'.2.2⟩
      simp only [if_neg h, if_neg (hno _), sub_zero]

/-! ### The steps of a session -/

/-- **What a step of a process does to the balance of its account.** -/
inductive Transaction (a : ℕ) (sh : ServerSession ℚ) (c : Client ℚ) (sh' : ServerSession ℚ)
    (c' : Client ℚ) (out : Output) : Prop
  | apply (hbalance : (sh'.accounts a).balance = (sh.accounts a).balance + c.change)
      (hcode : c.request.code = .credit ∨
        (c.request.code = .debit ∧ 0 ≤ (sh.accounts a).balance - c.amount))
      (hpc : c.pc ≠ .reply) (hinside : c.pc.inside = true) (hpc' : c'.pc = .reply)
      (hresponse : c'.response.code = .success)
      (haccount : c'.clientAccount = some a) (hrequest : c'.request = c.request)
      (hout : out = .silent)
  | answer (hbalance : (sh'.accounts a).balance = (sh.accounts a).balance) (hpc : c.pc = .reply)
      (hpc' : c'.pc ≠ .reply) (hout : out = .wrote c.response)
  | retry (hsh : sh' = sh) (hc : c' = c) (hout : out = .silent)
  | other (hbalance : (sh'.accounts a).balance = (sh.accounts a).balance) (hpc : c.pc ≠ .reply)
      (hpending : c'.pending a = 0) (hout : out = .silent)

/-- A step of a session that leaves the balance. -/
private theorem Transaction.of_move {sh₁ : ServerSession ℚ} {c₁ : Client ℚ}
    (hs : move sh₁ c₁ = some (sh', c', out))
    (hbalance : (sh₁.accounts a).balance = (sh.accounts a).balance) (hpc : c.pc ≠ .reply)
    (hpending : c₁.pending a = 0) : Transaction a sh c sh' c' out := by
  simp only [move, Option.some.injEq, Prod.mk.injEq] at hs
  obtain ⟨rfl, rfl, rfl⟩ := hs
  exact .other hbalance hpc hpending rfl

/-- Closing a session is not yet answered. -/
private theorem endSession_pending (ha : c.clientAccount = some a) (ending : Ending) :
    (endSession c ending).pending a = 0 := by
  rw [endSession, if_neg (by simp [ha])]
  exact pending_of_pc nofun

/-- The switch for a client in session applies nothing. -/
private theorem inSession_pending : (inSession c).pending a = 0 := by
  unfold inSession
  split
  case h_1 hcode | h_2 hcode =>
    exact pending_of_change (by simp [Client.change, Client.respond, hcode])
  case h_8 =>
    exact pending_of_change (by simp only [Client.change, Client.respond])
  all_goals exact pending_of_pc (by simp [Client.goto])

/-- **A debit** is applied as a whole or not at all. -/
theorem clientDebit_transaction {l : DebitPc ℚ} (hA : Assertion p sh c)
    (hpc : c.pc = .clientDebit l) (hs : clientDebit sh c l = some (sh', c', out))
    (ha : c.clientAccount = some a) : Transaction a sh c sh' c' out := by
  have hholds := hA.holds
  rw [hpc] at hholds
  obtain ⟨hcode, b, hb, hl⟩ := hholds
  obtain rfl := Option.some.inj (ha.symm.trans hb)
  have hs := ownAccount ha hs
  have hne : c.pc ≠ .reply := by simp [hpc]
  cases l with
  | test =>
    dsimp only at hs
    split at hs
    · exact .of_move hs rfl hne (pending_of_pc nofun)
    · exact .of_move hs rfl hne (pending_of_pc nofun)
  | load => exact .of_move hs rfl hne (pending_of_pc nofun)
  | store balance =>
    obtain ⟨rfl, hroom⟩ := hl
    simp only [move, Option.some.injEq, Prod.mk.injEq] at hs
    obtain ⟨rfl, rfl, rfl⟩ := hs
    refine .apply ?_ (.inr ⟨hcode, negative_eq_false.mp hroom⟩) hne (by rw [hpc]; rfl) rfl rfl ha
      rfl rfl
    simp only [ServerSession.modify_accounts_self, Client.change, Client.amount, hcode]
    exact sub_eq_add_neg _ _
  | refused => exact .of_move hs rfl hne (if_neg fun h => ResponseCode.noConfusion h.2.2)

/-- **A credit** is applied in full. -/
theorem clientCredit_transaction {l : CreditPc ℚ} (hA : Assertion p sh c)
    (hpc : c.pc = .clientCredit l) (hs : clientCredit sh c l = some (sh', c', out))
    (ha : c.clientAccount = some a) : Transaction a sh c sh' c' out := by
  have hholds := hA.holds
  rw [hpc] at hholds
  obtain ⟨hcode, b, hb, hl⟩ := hholds
  obtain rfl := Option.some.inj (ha.symm.trans hb)
  have hs := ownAccount ha hs
  have hne : c.pc ≠ .reply := by simp [hpc]
  cases l with
  | load => exact .of_move hs rfl hne (pending_of_pc nofun)
  | store balance =>
    obtain rfl := hl
    simp only [move, Option.some.injEq, Prod.mk.injEq] at hs
    obtain ⟨rfl, rfl, rfl⟩ := hs
    refine .apply ?_ (.inl hcode) hne (by rw [hpc]; rfl) rfl rfl ha rfl rfl
    simp only [ServerSession.modify_accounts_self, Client.change, Client.amount, hcode]
    rfl

/-- **Starting a session** leaves the balance: behind the trylock the account is the process's. -/
theorem clientStart_transaction {l : StartPc} (hA : Assertion p sh c)
    (hpc : c.pc = .clientStart l) (hs : clientStart p sh c i l = some (sh', c', out))
    (ha : c.clientAccount = some a) : Transaction a sh c sh' c' out := by
  have hholds := hA.holds
  rw [hpc] at hholds
  obtain ⟨hcode, hl⟩ := hholds
  cases clientStart_cases hs with
  | enter ha' =>
    obtain rfl := Option.some.inj (ha.symm.trans ha')
    refine .other ?_ (by simp [hpc])
      (pending_of_change (by simp [Client.change, Client.respond, hcode])) rfl
    rw [sh.modify_accounts_self]
  | lock | count =>
    rw [show c.clientAccount = none from hl] at ha
    cases ha
  | unlock | search | take | busy | wait =>
    rw [hl.1] at ha
    cases ha

/-- **Ending a session** leaves the balance, and the account. -/
theorem setNotInSession_transaction {ending : Ending} {l : EndPc}
    (hpc : c.pc = .setNotInSession ending l)
    (hs : setNotInSession sh c ending l = some (sh', c', out))
    (ha : c.clientAccount = some a) : Transaction a sh c sh' c' out := by
  have hs := ownAccount ha hs
  cases l with
  | store =>
    refine .of_move hs ?_ (by simp [hpc]) (pending_of_pc nofun)
    rw [sh.modify_accounts_self]
  | unlock =>
    refine .of_move hs ?_ (by simp [hpc]) (pending_of_account ?_)
    · rw [sh.modify_accounts_self]
    · rw [(afterSession_spec sh rfl ending).1]
      exact (Option.some_ne_none a).symm

/-- **A step of a process with an account.** -/
theorem client_transaction (hA : Assertion p sh c) (ha : c.clientAccount = some a)
    (hs : client p sh c i = some (sh', c', out)) : Transaction a sh c sh' c' out := by
  have hholds := hA.holds
  cases client_cases hs with
  | select hpc _ hsh hc hout =>
    subst hsh hc hout
    refine .other rfl (by simp [hpc]) ?_ rfl
    unfold afterSelect
    split_ifs
    · exact pending_of_pc (by simp [Client.goto])
    · exact endSession_pending ha _
    · exact pending_of_pc (by simp [Client.goto])
  | listen hpc _ hsh hc hout =>
    subst hsh hc hout
    refine .other rfl (by simp [hpc]) ?_ rfl
    unfold afterRead
    split_ifs
    · exact endSession_pending ha _
    · exact pending_of_pc (by simp)
  | check hpc hs =>
    simp only [check, ha, Option.bind_eq_bind, Option.bind_eq_some_iff] at hs
    obtain ⟨x, hx, hs⟩ := hs
    obtain rfl := account?_eq_some hx
    rw [if_pos ((hA.session a ha).mpr (by rw [hpc]; rfl))] at hs
    exact .of_move hs rfl (by simp [hpc]) inSession_pending
  | clientOpen l hpc hs =>
    rw [hpc] at hholds
    rw [hholds.2.1] at ha
    cases ha
  | clientStart l hpc hs => exact clientStart_transaction hA hpc hs ha
  | clientDebit l hpc hs => exact clientDebit_transaction hA hpc hs ha
  | clientCredit l hpc hs => exact clientCredit_transaction hA hpc hs ha
  | balance l hpc hs =>
    rw [hpc] at hholds
    have hs := ownAccount ha hs
    cases l with
    | load =>
      refine .of_move hs rfl (by simp [hpc]) (pending_of_pc (c := c.goto _) ?_)
      simp [Client.goto]
    | name balance =>
      exact .of_move hs rfl (by simp [hpc])
        (pending_of_change (by simp [Client.change, Client.respond, hholds.1]))
  | setNotInSession ending l hpc hs => exact setNotInSession_transaction hpc hs ha
  | retry _ hsh hc hout => exact .retry hsh hc hout
  | answer hpc hsh hc hout =>
    subst hsh hc hout
    refine .answer rfl hpc ?_ rfl
    simp only [Client.goto]
    split <;> simp
  | timeOut _ hpc =>
    rw [hpc] at hholds
    rw [show c.clientAccount = none from hholds] at ha
    cases ha

/-- A process that takes an account has nothing to answer on it. -/
private theorem pending_of_taken (hI : Invariant sh) (hA : Assertion p sh c)
    (hA' : Assertion p sh' c')
    (hc : Change p sh sh') (ha : c.clientAccount ≠ some a) : c'.pending a = 0 := by
  obtain ⟨-, hin, hfree⟩ := hc.account_of_ne hI (mt (hA.mutex a).mp ha)
  by_cases ha' : c'.clientAccount = some a
  · refine pending_of_pc fun hpc => ?_
    -- the account was free, so its flag is not set, as it would be at any point but one
    refine hI.session a ?_ (hfree ((hA'.mutex a).mpr ha'))
    rw [← hin, hA'.session a ha', hpc]
    rfl
  · exact pending_of_account ha'

/-! ### The ledger -/

/-- What the session of an account has applied and not yet answered. -/
def pendingOn (s : Configuration ℕ (ServerSession ℚ) (Client ℚ)) (a : ℕ) : ℚ :=
  (s.shared.accounts a).accountSessionMutex.elim 0 fun p => (s.locals p).pending a

/-- The equation of the ledger for one step. -/
private theorem Transaction.equation (ht : Transaction a sh c sh' c' out)
    (ha : c.clientAccount = some a) :
    (sh'.accounts a).balance + c.pending a
      = (sh.accounts a).balance + c'.pending a + c.settles a out := by
  cases ht with
  | apply hbalance hcode hpc hinside hpc' hresponse haccount hrequest hout =>
    have hpending : c'.pending a = c.change := by
      rw [Client.pending, if_pos ⟨hpc', haccount, hresponse⟩]
      simp only [Client.change, Client.amount, hrequest]
    rw [hbalance, hpending, pending_of_pc hpc, hout, Client.settles]
  | answer hbalance hpc hpc' hout =>
    rw [hbalance, pending_of_pc hpc', hout]
    simp [Client.pending, Client.settles, hpc, ha]
  | retry hsh hc hout => rw [hsh, hc, hout, Client.settles, add_zero]
  | other hbalance hpc hpending hout =>
    rw [hbalance, hpending, pending_of_pc hpc, hout, Client.settles, add_zero, add_zero]

/-- What is pending on an account is what its holder has pending. -/
private theorem pendingOn_of_holder (h : (s.shared.accounts a).accountSessionMutex = some p) :
    pendingOn s a = (s.locals p).pending a := by
  rw [pendingOn, h]
  rfl

/-- A step in the session of an account: what is pending then is what the process has. -/
private theorem pendingOn_post_of_own {e : Step ℚ}
    (hs : ∀ q ≠ p, Stable q e.pre.shared e.post.shared)
    (hA : Assertion p e.pre.shared (e.pre.locals p))
    (hA' : Assertion p e.post.shared (e.post.locals p))
    (ha : (e.pre.locals p).clientAccount = some a) :
    pendingOn e.post a = (e.post.locals p).pending a := by
  by_cases ha' : (e.post.locals p).clientAccount = some a
  · exact pendingOn_of_holder ((hA'.mutex a).mpr ha')
  · -- the session is left, and no other process has got it in the same step
    rw [pending_of_account ha', pendingOn]
    rcases hq : (e.post.shared.accounts a).accountSessionMutex with _ | q
    · rfl
    · have hne : q ≠ p := fun hqe => ha' ((hA'.mutex a).mp (hqe ▸ hq))
      have hsame := ((hs q hne).mutex a).mp hq
      rw [(hA.mutex a).mpr ha] at hsame
      exact absurd (Option.some.inj hsame).symm hne

/-- A step outside the session of an account changes nothing that is pending on it. -/
private theorem pendingOn_post_of_ne {e : Step ℚ} (hI : Invariant e.pre.shared)
    (hA : Assertion p e.pre.shared (e.pre.locals p))
    (hA' : Assertion p e.post.shared (e.post.locals p)) (hc : Change p e.pre.shared e.post.shared)
    (hothers : ∀ q ≠ p, e.post.locals q = e.pre.locals q)
    (ha : (e.pre.locals p).clientAccount ≠ some a) : pendingOn e.post a = pendingOn e.pre a := by
  rcases hq : (e.pre.shared.accounts a).accountSessionMutex with _ | q
  · -- nobody's account, and at most taken by this step
    rw [pendingOn, pendingOn, hq]
    rcases hq' : (e.post.shared.accounts a).accountSessionMutex with _ | q'
    · rfl
    · have hqe : q' = p := by
        by_contra hqe
        have hsame := ((hc.stable hI hqe).mutex a).mp hq'
        rw [hq] at hsame
        cases hsame
      rw [hqe]
      exact pending_of_taken hI hA hA' hc ha
  · -- the session is of another process
    have hqe : q ≠ p := fun hqe => ha ((hA.mutex a).mp (hqe ▸ hq))
    rw [pendingOn_of_holder (((hc.stable hI hqe).mutex a).mpr hq), pendingOn_of_holder hq,
      hothers q hqe]

/-- The equation of the ledger for one step of a run, on any account. -/
private theorem balance_step {e : Step ℚ} (hI : Invariant e.pre.shared)
    (hA : ∀ p, Assertion p e.pre.shared (e.pre.locals p))
    (he : e.Occurs (program sendable).machine) :
    (e.post.shared.accounts a).balance + pendingOn e.pre a
      = (e.pre.shared.accounts a).balance + pendingOn e.post a
        + (answered .credit a e - answered .debit a e) := by
  have hs := he.localStep
  obtain ⟨hc, hA'⟩ := client_spec hI (hA e.op.1) he.legal.free hs
  have hmutex := (hA e.op.1).mutex a
  rw [← settles_eq]
  by_cases ha : (stepper e).clientAccount = some a
  · have heq := (client_transaction (hA e.op.1) ha hs).equation ha
    rw [pendingOn_of_holder (hmutex.mpr ha),
      pendingOn_post_of_own (fun _ hq => hc.stable hI hq) (hA e.op.1) hA' ha]
    exact heq
  · have hzero : (stepper e).settles a e.out = 0 := by
      rcases e.out with _ | r
      · rfl
      · exact if_neg fun h => ha h.2
    rw [(hc.account_of_ne hI (mt hmutex.mp ha)).1, hzero, add_zero,
      pendingOn_post_of_ne hI (hA e.op.1) hA' hc (fun _ hq => he.locals_of_ne hq) ha]

/-- **The ledger.** The balance is what was answered, and what is applied and not yet answered. -/
theorem ledger_of_run (hr : Run (program sendable).machine (start sendable) tr s) (a : ℕ) :
    (s.shared.accounts a).balance = credited a tr - debited a tr + pendingOn s a := by
  refine hr.invariant_trace (I := fun tr s =>
    (s.shared.accounts a).balance = credited a tr - debited a tr + pendingOn s a) ?_ ?_
  · exact (sub_self (0 : ℚ)).symm.trans (add_zero _).symm
  · intro tr e hr ih he
    obtain ⟨hI, hA⟩ := invariant_of_run hr
    have hstep := balance_step (a := a) hI hA he
    simp only [credited, debited, List.map_append, List.map_cons, List.map_nil, List.sum_append,
      List.sum_singleton] at ih ⊢
    linarith

/-! ### Balances stay non-negative -/

/-- An amount that is credited is not negative. -/
private theorem amount_nonneg
    (h : HasAmount c.request ∨ c.request = (Client.init : Client ℚ).request)
    (hcode : c.request.code = .credit) : 0 ≤ c.amount := by
  rcases h with h | h
  · exact (h (.inl hcode)).nonneg
  · rw [h] at hcode
    cases hcode

/-- **No balance is ever negative.** -/
theorem balance_nonneg (hr : Run (program HasAmount).machine (start HasAmount) tr s) (a : ℕ) :
    0 ≤ (s.shared.accounts a).balance := by
  refine hr.invariant_trace (I := fun _ s => 0 ≤ (s.shared.accounts a).balance) le_rfl ?_
  intro tr e hr ih he
  obtain ⟨hI, hA⟩ := invariant_of_run hr
  have hs := he.localStep
  by_cases ha : (stepper e).clientAccount = some a
  · cases client_transaction (hA e.op.1) ha hs with
    | apply hbalance hcode =>
      rw [hbalance]
      rcases hcode with hcode | ⟨hcode, hroom⟩
      · have hamount := amount_nonneg (request_of_run hr e.op.1) hcode
        rw [Client.change, hcode]
        exact add_nonneg ih hamount
      · rw [Client.change, hcode]
        exact hroom.trans_eq (sub_eq_add_neg _ _)
    | answer hbalance | other hbalance => rwa [hbalance]
    | retry hsh => rwa [hsh]
  · have hc := (client_spec hI (hA e.op.1) he.legal.free hs).1
    rwa [(hc.account_of_ne hI (mt ((hA e.op.1).mutex a).mp ha)).1]

/-! ### Refused debits -/

/-- A debit on its way, or refused, or any request that is not yet told apart. -/
def Client.Unapplied (c : Client ℚ) : Prop :=
  match c.pc with
  | .check => True
  | .clientDebit _ => True
  | .reply => c.request.code = .debit ∧ c.response.code = .balanceReachZero
  | _ => False

/-- Only the refusal of a debit is answered with this code. -/
private theorem not_unapplied_respond {code : ResponseCode} {message}
    (h : code ≠ .balanceReachZero) :
    ¬(c.respond code message).Unapplied := fun hu => h hu.2

private theorem not_unapplied_afterSession (ending : Ending) :
    ¬(afterSession c ending).Unapplied := by
  cases ending with
  | disconnect | timeOut => exact id
  | finish | exit => exact not_unapplied_respond ResponseCode.noConfusion

private theorem not_unapplied_endSession (ending : Ending) : ¬(endSession c ending).Unapplied := by
  unfold endSession
  split
  · exact not_unapplied_afterSession ending
  · exact id

private theorem not_unapplied_outOfSession : ¬(outOfSession c).Unapplied := by
  unfold outOfSession
  split
  case h_1 | h_2 => exact id
  case h_3 | h_4 => exact not_unapplied_respond ResponseCode.noConfusion

/-- A function other than `client_debit` neither refuses a debit nor leads to a point of one. -/
private theorem not_unapplied_of_flow {κ : Type} {point : κ → Pc ℚ}
    (hcode : c.request.code ≠ .debit)
    (hrequest : c'.request = c.request) (hpc : c'.pc = .reply ∨ ∃ l, c'.pc = point l)
    (hpoint : ∀ l, (⟨point l, c'.clientAccount, c'.request, c'.response⟩ : Client ℚ).Unapplied →
      False) : ¬c'.Unapplied := by
  intro hu
  rcases hpc with hreply | ⟨l, hl⟩
  · rw [Client.Unapplied, hreply] at hu
    exact hcode (hrequest ▸ hu.1)
  · rw [Client.Unapplied, hl] at hu
    exact hpoint l hu

/-- The switch for a client in session sends only a debit on its way. -/
private theorem inSession_unapplied (hu : (inSession c).Unapplied) :
    inSession c = c.goto (.clientDebit .test) := by
  unfold inSession at hu ⊢
  split at hu
  case h_3 => rfl
  case h_1 | h_2 | h_8 => exact absurd hu (not_unapplied_respond ResponseCode.noConfusion)
  case h_4 | h_5 | h_6 | h_7 => exact absurd hu id

/-- **The steps of a debit up to its refusal** change no shared memory. -/
theorem unapplied_step (hA : Assertion p sh c) (hs : client p sh c i = some (sh', c', out))
    (hu : c'.Unapplied) : (sh' = sh ∧ c'.clientAccount = c.clientAccount) ∧
      ((c.pc = .listen ∧ ∃ n, n ≠ 0 ∧ i = .read n c'.request) ∨
        (c.pc ≠ .listen ∧ c.Unapplied ∧ c'.request = c.request)) := by
  have hholds := hA.holds
  cases client_cases hs with
  | select _ _ _ hc =>
    subst hc
    unfold afterSelect at hu
    split_ifs at hu
    · exact absurd hu id
    · exact absurd hu (not_unapplied_endSession _)
    · exact absurd hu id
  | listen hpc hi hsh hc =>
    subst hsh hc
    unfold afterRead at hu ⊢
    split_ifs at hu ⊢ with hn
    · exact absurd hu (not_unapplied_endSession _)
    · exact ⟨⟨rfl, rfl⟩, .inl ⟨hpc, _, hn, hi⟩⟩
  | check hpc hs =>
    obtain ⟨-, rfl, rfl | rfl⟩ := check_flow hs
    · rw [inSession_unapplied hu]
      exact ⟨⟨rfl, rfl⟩, .inr ⟨by simp [hpc], by simp [Client.Unapplied, hpc], rfl⟩⟩
    · exact absurd hu not_unapplied_outOfSession
  | clientOpen l hpc hs =>
    rw [hpc] at hholds
    obtain ⟨-, hrequest, hpc'⟩ := clientOpen_flow hs
    exact absurd hu (not_unapplied_of_flow (by simp [hholds.1]) hrequest hpc' fun _ => id)
  | clientStart l hpc hs =>
    rw [hpc] at hholds
    obtain ⟨hrequest, hpc'⟩ := clientStart_flow hs
    exact absurd hu (not_unapplied_of_flow (by simp [hholds.1]) hrequest hpc' fun _ => id)
  | clientDebit l hpc hs =>
    obtain ⟨-, hrequest, hacc, ⟨hreply, hsuccess⟩ | ⟨hsh, -⟩⟩ := clientDebit_flow hs
    · -- an applied debit is answered with success
      rw [Client.Unapplied, hreply] at hu
      rw [hu.2] at hsuccess
      cases hsuccess
    · exact ⟨⟨hsh, hacc⟩, .inr ⟨by simp [hpc], by simp [Client.Unapplied, hpc], hrequest⟩⟩
  | clientCredit l hpc hs =>
    rw [hpc] at hholds
    obtain ⟨-, hrequest, hpc'⟩ := clientCredit_flow hs
    exact absurd hu (not_unapplied_of_flow (by simp [hholds.1]) hrequest hpc' fun _ => id)
  | balance l hpc hs =>
    rw [hpc] at hholds
    obtain ⟨-, hrequest, hpc'⟩ := clientBalance_flow hs
    exact absurd hu (not_unapplied_of_flow (by simp [hholds.1]) hrequest hpc' fun _ => id)
  | setNotInSession ending l _ hs =>
    obtain ⟨-, -, ⟨l', hpc'⟩ | rfl⟩ := setNotInSession_flow hs
    · rw [Client.Unapplied, hpc'] at hu
      exact hu.elim
    · exact absurd hu (not_unapplied_afterSession ending)
  | retry hpc hsh hc =>
    subst hsh hc
    exact ⟨⟨rfl, rfl⟩, .inr ⟨by simp [hpc], hu, rfl⟩⟩
  | answer _ _ hc =>
    subst hc
    unfold Client.goto at hu
    split_ifs at hu <;> exact absurd hu id
  | timeOut _ _ _ _ hc =>
    subst hc
    exact absurd hu id

/-- A step leaves the balance of an account. -/
def Keeps (b : ℕ) (e : Step ℚ) : Prop :=
  (e.post.shared.accounts b).balance = (e.pre.shared.accounts b).balance

/-- The process receives a request. -/
def Reads (p : ℕ) (r : Request) (e : Step ℚ) : Prop :=
  e.op.1 = p ∧ ∃ n, n ≠ 0 ∧ e.op.2 = .read n r

/-- **What a process has done since it received its request**, in a run of `l₁`, the receipt
`e₁`, and `l₂`: it has changed nothing, and no one has changed its account. -/
structure Untouched (p : ℕ) (c : Client ℚ) (e₁ : Step ℚ) (l₂ : List (Step ℚ)) : Prop where
  reads : Reads p c.request e₁
  only : ∀ e ∈ l₂, ∀ r, ¬Reads p r e
  keeps : ∀ e ∈ e₁ :: l₂, ∀ b, e.op.1 = p ∨ c.clientAccount = some b → Keeps b e

/-- One more step that changes nothing of the process's concern. -/
private theorem Untouched.snoc {e₁ e : Step ℚ} {l₂ : List (Step ℚ)} (h : Untouched p c e₁ l₂)
    (hrequest : c'.request = c.request) (haccount : c'.clientAccount = c.clientAccount)
    (hread : ∀ r, ¬Reads p r e)
    (hkeeps : ∀ b, e.op.1 = p ∨ c.clientAccount = some b → Keeps b e) :
    Untouched p c' e₁ (l₂ ++ [e]) where
  reads := hrequest ▸ h.reads
  only f hf := by
    rcases List.mem_append.mp hf with hf | hf
    · exact h.only f hf
    · rw [List.mem_singleton.mp hf]
      exact hread
  keeps f hf := by
    rw [haccount]
    rcases List.mem_append.mp (show f ∈ (e₁ :: l₂) ++ [e] from hf) with hf | hf
    · exact h.keeps f hf
    · rw [List.mem_singleton.mp hf]
      exact hkeeps

/-- Only a process that listens receives. -/
private theorem listen_of_takes {pc : Pc ℚ} {n : ℤ} {r : Request}
    (h : pc.takes (.read n r) = true) :
    pc = .listen := by
  cases pc with
  | listen => rfl
  | clientStart l => cases l <;> cases h
  | _ => cases h

/-- **A debit changes nothing up to its refusal.** -/
theorem untouched_of_run (hr : Run (program sendable).machine (start sendable) tr s)
    (hu : (s.locals p).Unapplied) :
    ∃ l₁ e₁ l₂, tr = l₁ ++ e₁ :: l₂ ∧ Untouched p (s.locals p) e₁ l₂ := by
  refine hr.invariant_trace (I := fun tr s => (s.locals p).Unapplied →
    ∃ l₁ e₁ l₂, tr = l₁ ++ e₁ :: l₂ ∧ Untouched p (s.locals p) e₁ l₂) False.elim ?_ hu
  intro tr e hr ih he hu
  obtain ⟨hI, hA⟩ := invariant_of_run hr
  by_cases hp : p = e.op.1
  · subst hp
    obtain ⟨⟨hsh, hacc⟩, ⟨-, hread⟩ | ⟨hpc, hu', hrequest⟩⟩ :=
      unapplied_step (hA e.op.1) he.localStep hu
    · refine ⟨tr, e, [], rfl, ⟨rfl, hread⟩, by simp, fun f hf b _ => ?_⟩
      rw [List.mem_singleton.mp hf, Keeps, hsh]
    · obtain ⟨l₁, e₁, l₂, rfl, h⟩ := ih hu'
      refine ⟨l₁, e₁, l₂ ++ [e], by simp, h.snoc hrequest hacc (fun r hr => ?_) fun b _ => ?_⟩
      · obtain ⟨-, n, -, hop⟩ := hr
        exact hpc (listen_of_takes (hop ▸ he.legal.takes))
      · rw [Keeps, hsh]
  · rw [he.locals_of_ne hp] at hu ⊢
    have hc := (client_spec hI (hA e.op.1) he.legal.free he.localStep).1
    obtain ⟨l₁, e₁, l₂, rfl, h⟩ := ih hu
    refine ⟨l₁, e₁, l₂ ++ [e], by simp,
      h.snoc rfl rfl (fun r hr => hp hr.1.symm) fun b hb => ?_⟩
    rcases hb with hb | hb
    · exact absurd hb.symm hp
    · rw [Keeps, (hc.stable hI hp).account b (((hA p).mutex b).mpr hb)]

/-! ### The result -/

/-- Between its requests an account has nothing pending. -/
private theorem pendingOn_eq_zero (hA : ∀ p, Assertion p s.shared (s.locals p))
    (hquiet : ∀ p, (s.locals p).clientAccount = some a → ¬(s.locals p).Transacting) :
    pendingOn s a = 0 := by
  rw [pendingOn]
  rcases hp : (s.shared.accounts a).accountSessionMutex with _ | p
  · rfl
  · by_contra hne
    have hpc : (s.locals p).pc = .reply := by
      by_contra hpc
      exact hne (pending_of_pc hpc)
    refine hquiet p (((hA p).mutex a).mp hp) ⟨?_, by rw [hpc]; rfl⟩
    by_contra hcode
    obtain ⟨hcredit, hdebit⟩ := not_or.mp hcode
    refine hne (pending_of_change ?_)
    simp only [Client.change]

/-- **A change of a balance**: a credit, or a debit there is enough for, by the process that
holds the session of the account, and answered with success. -/
structure Applies (a : ℕ) (e : Step ℚ) : Prop where
  account : (stepper e).clientAccount = some a
  mutex : (e.pre.shared.accounts a).accountSessionMutex = some e.op.1
  session : (e.pre.shared.accounts a).inSession = .inSession
  request : (stepper e).request.code = .credit ∨ ((stepper e).request.code = .debit ∧
    0 ≤ (e.pre.shared.accounts a).balance - (stepper e).amount)
  balance : (e.post.shared.accounts a).balance
    = (e.pre.shared.accounts a).balance + (stepper e).change
  answer : (e.post.locals e.op.1).pc = .reply ∧
    (e.post.locals e.op.1).response.code = .success

/-- Only an applied request changes a balance. -/
private theorem applies_of_mem (hr : Run (program sendable).machine (start sendable) tr s)
    {e : Step ℚ}
    (he : e ∈ tr) (hne : ¬Keeps a e) : Applies a e := by
  obtain ⟨hI, hA, hocc⟩ := step_of_mem hr he
  have hs := hocc.localStep
  by_cases ha : (stepper e).clientAccount = some a
  · cases client_transaction (hA e.op.1) ha hs with
    | apply hbalance hcode hpc hinside hpc' hresponse =>
      exact ⟨ha, ((hA e.op.1).mutex a).mpr ha, ((hA e.op.1).session a ha).mpr hinside, hcode,
        hbalance, hpc', hresponse⟩
    | answer hbalance | other hbalance => exact absurd hbalance hne
    | retry hsh => exact absurd (by rw [Keeps, hsh]) hne
  · have hc := (client_spec hI (hA e.op.1) hocc.legal.free hs).1
    exact absurd (hc.account_of_ne hI (mt ((hA e.op.1).mutex a).mp ha)).1 hne

/-- **A debit that is refused changes nothing**: between the receipt of the request and the
answer no step of the process changes a balance, and no step at all the one of its account. -/
def ChangesNothing (tr : List (Step ℚ)) (e : Step ℚ) : Prop :=
  ∃ l₁ e₁ l₂ l₃, tr = l₁ ++ e₁ :: l₂ ++ e :: l₃ ∧
    Untouched e.op.1 (stepper e) e₁ l₂ ∧ ∀ b, Keeps b e

/-- A credit in session and a debit that is refused are answered by the reply. -/
private theorem reply_of_wrote {r : Response} (hA : Assertion p sh c)
    (hs : client p sh c i = some (sh', c', .wrote r)) (hcode : c.request.code ≠ .start)
    (hne : c.clientAccount ≠ none ∨ r.code = .balanceReachZero) :
    c.pc = .reply ∧ r = c.response ∧ sh' = sh := by
  have hholds := hA.holds
  rcases client_output hs with h | ⟨index, hpc, -⟩ | ⟨hpc, hr⟩
  · exact h
  · rw [hpc] at hholds
    exact absurd hholds.1 hcode
  · rw [hpc] at hholds
    rcases hne with hne | hne
    · exact absurd hholds hne
    · rw [hne] at hr
      cases hr

/-- **Every balance is accounted for.** In every reachable state in which no credit or debit of
an account is in progress, its balance is what the credits of its sessions have added, all of
them answered with success, less the debits answered with success. No balance is ever negative.
A balance changes only by a credit, or a debit there is enough for, of the process that holds
the session; a debit that is refused changes nothing. -/
theorem balances_accounted (hr : Run (program HasAmount).machine (start HasAmount) tr s) :
    (∀ a, (∀ p, (s.locals p).clientAccount = some a → ¬(s.locals p).Transacting) →
      (s.shared.accounts a).balance = credited a tr - debited a tr) ∧
    (∀ a, 0 ≤ (s.shared.accounts a).balance) ∧
    (∀ e ∈ tr, ∀ a, ¬Keeps a e → Applies a e) ∧
    (∀ e ∈ tr, ∀ r, e.out = .wrote r → (stepper e).clientAccount ≠ none →
      (stepper e).request.code = .credit → r.code = .success) ∧
    ∀ e ∈ tr, ∀ r, e.out = .wrote r → (stepper e).request.code = .debit →
      r.code = .balanceReachZero → ChangesNothing tr e := by
  have hA := (invariant_of_run hr).2
  refine ⟨fun a hquiet => ?_, balance_nonneg hr, fun e he a => applies_of_mem hr he,
    fun e he r hout hne hcode => ?_, fun e he r hout hcode hrefused => ?_⟩
  · rw [ledger_of_run hr a, pendingOn_eq_zero hA hquiet, add_zero]
  · obtain ⟨hI, hA, hocc⟩ := step_of_mem hr he
    have hs := hocc.localStep
    rw [hout] at hs
    obtain ⟨hpc, rfl, -⟩ := reply_of_wrote (hA e.op.1) hs
      (hcode.trans_ne RequestCode.noConfusion) (.inl hne)
    have hholds := (hA e.op.1).holds
    rw [hpc] at hholds
    exact (hholds hne).1 hcode
  · obtain ⟨l, l₃, rfl, hl, hocc, -⟩ := hr.split_of_mem he
    have hs := hocc.localStep
    rw [hout] at hs
    obtain ⟨hpc, rfl, hsh⟩ :=
      reply_of_wrote ((invariant_of_run hl).2 e.op.1) hs
        (hcode.trans_ne RequestCode.noConfusion) (.inr hrefused)
    have hu : (stepper e).Unapplied := by
      rw [Client.Unapplied, show (stepper e).pc = .reply from hpc]
      exact ⟨hcode, hrefused⟩
    obtain ⟨l₁, e₁, l₂, rfl, h⟩ := untouched_of_run hl hu
    exact ⟨l₁, e₁, l₂, l₃, rfl, h, fun b => by rw [Keeps, hsh]⟩

/-! ### A visit of two clients -/

/-- The requests of two clients: the first opens an account, credits it and debits it twice, and
the second wants to start a session meanwhile. -/
def visitRequests : List Request :=
  [⟨.open_, ['a']⟩, ⟨.start, ['a']⟩, ⟨.credit, ['1', '2', '.', '5']⟩, ⟨.debit, ['2', '0']⟩,
    ⟨.debit, ['2', '.', '5']⟩]

/-- A process receives a request and tests its session. -/
def receive (p : ℕ) (r : Request) : List (ℕ × Input) := [(p, .select 1), (p, .read 105 r), (p, .go)]

/-- The steps of the visit. The first debit is refused. -/
def visitSteps : List (ℕ × Input) :=
  receive 0 ⟨.open_, ['a']⟩ ++ List.replicate 110 (0, .go) ++ [(0, .write 304)] ++
  receive 0 ⟨.start, ['a']⟩ ++ receive 1 ⟨.start, ['a']⟩ ++ List.replicate 7 (0, .go) ++
  [(0, .write 304)] ++ List.replicate 6 (1, .go) ++ [(1, .write 304)] ++
  receive 0 ⟨.credit, ['1', '2', '.', '5']⟩ ++
  [(0, .go), (1, .go), (0, .go), (0, .write (-1)), (0, .write 304)] ++
  receive 0 ⟨.debit, ['2', '0']⟩ ++ [(0, .go), (1, .write 304), (0, .go), (0, .write 304)] ++
  receive 0 ⟨.debit, ['2', '.', '5']⟩ ++ List.replicate 3 (0, .go) ++ [(0, .write 304)]

theorem visit_isSome : ((program (F := ℚ) (· ∈ visitRequests)).machine.exec
    (start (· ∈ visitRequests)) visitSteps).isSome := by decide +kernel

/-- The visit as a run. -/
def visit : List (Step ℚ) × Configuration ℕ (ServerSession ℚ) (Client ℚ) :=
  ((program (· ∈ visitRequests)).machine.exec (start (· ∈ visitRequests)) visitSteps).get
    visit_isSome

private theorem hasAmount_of_mem_visitRequests : ∀ r ∈ visitRequests, HasAmount r := by
  have hcredit : IsAmount ['1', '2', '.', '5'] :=
    ⟨tkCreate banking ['1', '2', '.', '5'], _, rfl, .inl rfl⟩
  have hrefused : IsAmount ['2', '0'] := ⟨tkCreate banking ['2', '0'], _, rfl, .inr rfl⟩
  have hdebit : IsAmount ['2', '.', '5'] :=
    ⟨tkCreate banking ['2', '.', '5'], _, rfl, .inl rfl⟩
  intro r hr hcode
  simp only [visitRequests, List.mem_cons, List.not_mem_nil, or_false] at hr
  rcases hr with rfl | rfl | rfl | rfl | rfl
  · rcases hcode with hcode | hcode <;> cases hcode
  · rcases hcode with hcode | hcode <;> cases hcode
  · exact hcredit
  · exact hrefused
  · exact hdebit

/-- A run whose requests are all sent by one kind of client is one of any kind that sends them. -/
theorem run_of_sendable {F : Type} [Arithmetic F] {tr : List (Step F)}
    {s : Configuration ℕ (ServerSession F) (Client F)} {sendable' : Request → Prop}
    (h : ∀ r, sendable r → sendable' r)
    (hr : Run (program sendable).machine (start sendable) tr s) :
    Run (program sendable').machine (start sendable') tr s := by
  refine hr.mono fun e he => ⟨⟨he.legal.takes, he.legal.free, ?_⟩, he.step⟩
  have hsent : e.op.2.sent sendable := he.legal.sent
  unfold Input.sent at hsent ⊢
  split at hsent
  · exact fun hn => h _ (hsent hn)
  · trivial

theorem run_visit : Run (program HasAmount).machine (start HasAmount) visit.1 visit.2 :=
  run_of_sendable hasAmount_of_mem_visitRequests (Machine.run_get visit_isSome)

/-- After the visit the account holds what was credited less what was debited. -/
theorem balances_accounted_visit :
    (visit.2.shared.accounts 0).balance = credited 0 visit.1 - debited 0 visit.1 ∧
    credited 0 visit.1 = 25 / 2 ∧ debited 0 visit.1 = 5 / 2 ∧
    ∀ e ∈ visit.1, ∀ r, e.out = .wrote r → (stepper e).request.code = .debit →
      r.code = .balanceReachZero → ChangesNothing visit.1 e := by
  obtain ⟨hbalance, -, -, -, hrefused⟩ := balances_accounted run_visit
  refine ⟨hbalance 0 fun p hp => ?_, by decide +kernel, by decide +kernel, hrefused⟩
  -- the session is of the first process, which is waiting for a request
  have hmutex := (((invariant_of_run run_visit).2 p).mutex 0).mpr hp
  have hholder : (visit.2.shared.accounts 0).accountSessionMutex = some 0 := by decide +kernel
  rw [hholder] at hmutex
  rw [← Option.some.inj hmutex]
  have hpc : (visit.2.locals 0).pc.serving = false := by decide +kernel
  exact fun h => absurd h.2 (by simp [hpc])

end Cs214.MultithreadedBanking

import Cs214.MultithreadedBanking.Model

/-!
# The cases of a step

`OpenStep` and `StartStep` list what `client_open` and `client_start` do at each of their points:
the shared memory and the process behind the access, and what is written. `ClientStep` lists the
points of `client()`. Every step is one of these (`clientOpen_cases`, `clientStart_cases`,
`client_cases`), and what is proved of a step is proved by cases of them.
-/

namespace Cs214.MultithreadedBanking

set_option linter.unusedSectionVars false

variable {F : Type} [Arithmetic F] {p a : ℕ} {sh sh' : ServerSession F} {c c' : Client F}
  {i : Input} {out : Output}

theorem account?_eq_some {x : Account F} (h : sh.account? a = some x) : sh.accounts a = x := by
  unfold ServerSession.account? at h
  split at h
  · exact Option.some.inj h
  · cases h

/-- A step that only moves the process. -/
theorem move_eq_some {sh₁ : ServerSession F} {c₁ : Client F}
    (hs : move sh₁ c₁ = some (sh', c', out)) : sh₁ = sh' ∧ c₁ = c' ∧ .silent = out := by
  simpa only [move, Option.some.injEq, Prod.mk.injEq] using hs

/-- A store into the account that is opened. -/
private theorem openStore_eq_some {index : ℕ} {f : Account F → Account F} {l : OpenPc}
    (hs : openStore sh c index f l = some (sh', c', out)) :
    sh.modify index f = sh' ∧ c.goto (.clientOpen l) = c' ∧ .silent = out := by
  simp only [openStore, move, Option.bind_eq_bind, Option.bind_eq_some_iff,
    Option.some.injEq, Prod.mk.injEq] at hs
  obtain ⟨-, -, hs⟩ := hs
  exact hs

/-! ### `client_open` -/

/-- **The cases of `client_open`.** -/
inductive OpenStep (p : ℕ) (sh : ServerSession F) (c : Client F) :
    OpenPc → ServerSession F → Client F → Output → Prop
  | lock : OpenStep p sh c .lock { sh with newAccountLockMutex := some p }
      (c.goto (.clientOpen .full)) .silent
  | full (hfull : sh.accountsNo = maxAccount) :
      OpenStep p sh c .full sh (openRefuse c "Database is full.".toList) .silent
  | room (hroom : sh.accountsNo ≠ maxAccount) :
      OpenStep p sh c .full sh (c.goto (.clientOpen .count)) .silent
  | count : OpenStep p sh c .count sh
      (openSearch c sh.accountsNo (searchAccount sh.accountsNo)) .silent
  | search {n index j : ℕ} {r : Search} (hr : searchStep sh n index j c.request.message = some r) :
      OpenStep p sh c (.search n index j) sh (openSearch c n r) .silent
  | present {index : ℕ} (hindex : (index : ℤ) ≤ sh.accountsNo - 1) :
      OpenStep p sh c (.found index) sh
        (openRefuse c "Account's already created.".toList) .silent
  | absent {index : ℕ} (hindex : ¬(index : ℤ) ≤ sh.accountsNo - 1) :
      OpenStep p sh c (.found index) sh (c.goto (.clientOpen (.mutex index))) .silent
  | mutex (index : ℕ) : OpenStep p sh c (.mutex index)
      (sh.modify index fun a => { a with accountSessionMutex := none })
      (c.goto (.clientOpen (.name index 0))) .silent
  | name (index j : ℕ) : OpenStep p sh c (.name index j)
      (sh.modify index fun a =>
        { a with name := Function.update a.name j (charAt c.request.message j) })
      (c.goto (.clientOpen
        (if j + 1 < nameMaxLength then .name index (j + 1) else .balance index))) .silent
  | balance (index : ℕ) : OpenStep p sh c (.balance index)
      (sh.modify index fun a => { a with balance := Arithmetic.zero })
      (c.goto (.clientOpen (.session index))) .silent
  | session (index : ℕ) : OpenStep p sh c (.session index)
      (sh.modify index fun a => { a with inSession := .notInSession })
      (c.goto (.clientOpen .loadNo)) .silent
  | loadNo : OpenStep p sh c .loadNo sh (c.goto (.clientOpen (.storeNo sh.accountsNo))) .silent
  | storeNo (n : ℕ) : OpenStep p sh c (.storeNo n) { sh with accountsNo := n + 1 }
      (c.goto (.clientOpen (.unlock true))) .silent
  | refused : OpenStep p sh c (.unlock false) { sh with newAccountLockMutex := none }
      (c.goto .reply) .silent
  | opened : OpenStep p sh c (.unlock true) { sh with newAccountLockMutex := none }
      (c.respond .success
        ("Account ".toList ++ c.request.message ++ " opened".toList)) .silent

theorem clientOpen_cases {l : OpenPc} (hs : clientOpen p sh c l = some (sh', c', out)) :
    OpenStep p sh c l sh' c' out := by
  cases l with
  | lock =>
    obtain ⟨rfl, rfl, rfl⟩ := move_eq_some hs
    exact .lock
  | full =>
    simp only [clientOpen] at hs
    split at hs
    · rename_i hfull
      obtain ⟨rfl, rfl, rfl⟩ := move_eq_some hs
      exact .full hfull
    · rename_i hroom
      obtain ⟨rfl, rfl, rfl⟩ := move_eq_some hs
      exact .room hroom
  | count =>
    obtain ⟨rfl, rfl, rfl⟩ := move_eq_some hs
    exact .count
  | search n index j =>
    obtain ⟨r, hr, hs⟩ := Option.bind_eq_some_iff.mp hs
    obtain ⟨rfl, rfl, rfl⟩ := move_eq_some hs
    exact .search hr
  | found index =>
    simp only [clientOpen] at hs
    split at hs
    · rename_i hindex
      obtain ⟨rfl, rfl, rfl⟩ := move_eq_some hs
      exact .present hindex
    · rename_i hindex
      obtain ⟨rfl, rfl, rfl⟩ := move_eq_some hs
      exact .absent hindex
  | mutex index =>
    obtain ⟨rfl, rfl, rfl⟩ := openStore_eq_some hs
    exact .mutex index
  | name index j =>
    obtain ⟨rfl, rfl, rfl⟩ := openStore_eq_some hs
    exact .name index j
  | balance index =>
    obtain ⟨rfl, rfl, rfl⟩ := openStore_eq_some hs
    exact .balance index
  | session index =>
    obtain ⟨rfl, rfl, rfl⟩ := openStore_eq_some hs
    exact .session index
  | loadNo =>
    obtain ⟨rfl, rfl, rfl⟩ := move_eq_some hs
    exact .loadNo
  | storeNo n =>
    obtain ⟨rfl, rfl, rfl⟩ := move_eq_some hs
    exact .storeNo n
  | unlock opened =>
    obtain ⟨rfl, rfl, rfl⟩ := move_eq_some hs
    cases opened with
    | false => exact .refused
    | true => exact .opened

/-! ### `client_start` -/

/-- **The cases of `client_start`.** -/
inductive StartStep (p : ℕ) (sh : ServerSession F) (c : Client F) :
    StartPc → ServerSession F → Client F → Output → Prop
  | lock : StartStep p sh c .lock { sh with newAccountLockMutex := some p }
      (c.goto (.clientStart .count)) .silent
  | count : StartStep p sh c .count sh (c.goto (.clientStart (.unlock sh.accountsNo))) .silent
  | unlock (n : ℕ) : StartStep p sh c (.unlock n) { sh with newAccountLockMutex := none }
      (startSearch c n (searchAccount n)) .silent
  | search {n index j : ℕ} {r : Search} (hr : searchStep sh n index j c.request.message = some r) :
      StartStep p sh c (.search n index j) sh (startSearch c n r) .silent
  | take {index : ℕ} (hfree : (sh.accounts index).accountSessionMutex = none) :
      StartStep p sh c (.trylock index)
        (sh.modify index fun a => { a with accountSessionMutex := some p })
        { c with pc := .clientStart .enter, clientAccount := some index } .silent
  | busy {index : ℕ} (htaken : (sh.accounts index).accountSessionMutex ≠ none) :
      StartStep p sh c (.trylock index) sh
        { c with
          pc := .clientStart (.wait index)
          response := formResponse .success "Waiting to start customer session.".toList } .silent
  | wait (index : ℕ) (written : ℤ) : StartStep p sh c (.wait index) sh
      (c.goto (.clientStart (.trylock index))) (write c.response written)
  | enter {index : ℕ} (ha : c.clientAccount = some index) : StartStep p sh c .enter
      (sh.modify index fun a => { a with inSession := .inSession })
      (c.respond .success
        ("Account ".toList ++ c.request.message ++ " is in session.".toList)) .silent

theorem clientStart_cases {l : StartPc} (hs : clientStart p sh c i l = some (sh', c', out)) :
    StartStep p sh c l sh' c' out := by
  cases l with
  | lock =>
    obtain ⟨rfl, rfl, rfl⟩ := move_eq_some hs
    exact .lock
  | count =>
    obtain ⟨rfl, rfl, rfl⟩ := move_eq_some hs
    exact .count
  | unlock n =>
    obtain ⟨rfl, rfl, rfl⟩ := move_eq_some hs
    exact .unlock n
  | search n index j =>
    obtain ⟨r, hr, hs⟩ := Option.bind_eq_some_iff.mp hs
    obtain ⟨rfl, rfl, rfl⟩ := move_eq_some hs
    exact .search hr
  | trylock index =>
    obtain ⟨x, hx, hs⟩ := Option.bind_eq_some_iff.mp hs
    obtain rfl := account?_eq_some hx
    split at hs
    · rename_i hfree
      obtain ⟨rfl, rfl, rfl⟩ := move_eq_some hs
      exact .take hfree
    · rename_i htaken
      obtain ⟨rfl, rfl, rfl⟩ := move_eq_some hs
      exact .busy htaken
  | wait index =>
    cases i with
    | write written =>
      simp only [clientStart, Option.some.injEq, Prod.mk.injEq] at hs
      obtain ⟨rfl, rfl, rfl⟩ := hs
      exact .wait index written
    | _ => cases hs
  | enter =>
    obtain ⟨index, ha, hs⟩ := Option.bind_eq_some_iff.mp hs
    obtain ⟨x, -, hs⟩ := Option.bind_eq_some_iff.mp hs
    obtain ⟨rfl, rfl, rfl⟩ := move_eq_some hs
    exact .enter ha

/-! ### `client()` -/

/-- **The cases of a step**: what `client()` runs at each point of its code, and where that leads
at the points that touch no shared memory. -/
inductive ClientStep (p : ℕ) (sh : ServerSession F) (c : Client F) (i : Input)
    (sh' : ServerSession F) (c' : Client F) (out : Output) : Prop
  | select {n : ℤ} (hpc : c.pc = .select) (hi : i = .select n) (hsh : sh' = sh)
    (hc : c' = afterSelect c n) (hout : out = .silent)
  | listen {n : ℤ} {r : Request} (hpc : c.pc = .listen) (hi : i = .read n r) (hsh : sh' = sh)
    (hc : c' = afterRead c n r) (hout : out = .silent)
  | check (hpc : c.pc = .check) (hs : check sh c = some (sh', c', out))
  | clientOpen (l : OpenPc) (hpc : c.pc = .clientOpen l)
    (hs : clientOpen p sh c l = some (sh', c', out))
  | clientStart (l : StartPc) (hpc : c.pc = .clientStart l)
    (hs : clientStart p sh c i l = some (sh', c', out))
  | clientDebit (l : DebitPc F) (hpc : c.pc = .clientDebit l)
    (hs : clientDebit sh c l = some (sh', c', out))
  | clientCredit (l : CreditPc F) (hpc : c.pc = .clientCredit l)
    (hs : clientCredit sh c l = some (sh', c', out))
  | balance (l : BalancePc F) (hpc : c.pc = .balance l)
    (hs : clientBalance sh c l = some (sh', c', out))
  | setNotInSession (ending : Ending) (l : EndPc) (hpc : c.pc = .setNotInSession ending l)
    (hs : setNotInSession sh c ending l = some (sh', c', out))
  | retry (hpc : c.pc = .reply) (hsh : sh' = sh) (hc : c' = c) (hout : out = .silent)
  | answer (hpc : c.pc = .reply) (hsh : sh' = sh)
    (hc : c' = c.goto (if c.request.code = .exit then .exited else .select))
    (hout : out = .wrote c.response)
  | timeOut {n : ℤ} (r : Response) (hpc : c.pc = .timeOut)
    (hr : r = formResponse .connectionTimeOut "Connection time out.".toList) (hsh : sh' = sh)
    (hc : c' = { c with pc := .exited, response := r }) (hout : out = write r n)

/-- **Every step** is one of these. -/
theorem client_cases (hs : client p sh c i = some (sh', c', out)) :
    ClientStep p sh c i sh' c' out := by
  unfold client at hs
  split at hs
  case h_1 hpc =>
    split at hs
    · obtain ⟨rfl, rfl, rfl⟩ := move_eq_some hs
      exact .select hpc rfl rfl rfl rfl
    · cases hs
  case h_2 hpc =>
    split at hs
    · obtain ⟨rfl, rfl, rfl⟩ := move_eq_some hs
      exact .listen hpc rfl rfl rfl rfl
    · cases hs
  case h_3 hpc => exact .check hpc hs
  case h_4 l hpc => exact .clientOpen l hpc hs
  case h_5 l hpc => exact .clientStart l hpc hs
  case h_6 l hpc => exact .clientDebit l hpc hs
  case h_7 l hpc => exact .clientCredit l hpc hs
  case h_8 l hpc => exact .balance l hpc hs
  case h_9 ending l hpc => exact .setNotInSession ending l hpc hs
  case h_10 hpc =>
    split at hs
    · unfold reply at hs
      split at hs
      · obtain ⟨rfl, rfl, rfl⟩ := move_eq_some hs
        exact .retry hpc rfl rfl rfl
      · simp only [Option.some.injEq, Prod.mk.injEq] at hs
        obtain ⟨rfl, rfl, rfl⟩ := hs
        exact .answer hpc rfl rfl rfl
    · cases hs
  case h_11 hpc =>
    split at hs
    · simp only [timedOut, Option.some.injEq, Prod.mk.injEq] at hs
      obtain ⟨rfl, rfl, rfl⟩ := hs
      exact .timeOut _ hpc rfl rfl rfl rfl
    · cases hs
  case h_12 => cases hs

end Cs214.MultithreadedBanking

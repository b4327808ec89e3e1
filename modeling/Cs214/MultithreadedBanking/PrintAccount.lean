import Cs214.MultithreadedBanking.Names

/-!
# The process that prints the accounts

The parent of the server prints all accounts from time to time (`print_account`). It holds the
lock of new accounts while it prints, and takes none of the locks of the sessions. `watched` is
the server with this process: its steps are those of the clients and those of the printer, one
access to the shared memory each.

The clients cannot tell whether the accounts are printed: they run as they would while nobody
holds the lock (`run_of_watched`), so that all that holds of the server holds of it with its
printer.
-/

namespace Cs214.MultithreadedBanking

open Tokenizer (CString nul)

set_option linter.unusedSectionVars false

variable {F : Type} [Arithmetic F]

/-! ### `print_account` -/

/-- The shared memory with the lock of new accounts given to somebody, or to nobody. -/
def ServerSession.setLock (sh : ServerSession F) (holder : Option ℕ) : ServerSession F :=
  { sh with newAccountLockMutex := holder }

/-- A text in a column of `n` characters, as `%ns` prints it. -/
def padLeft (n : ℕ) (text : CString) : CString := List.replicate (n - text.length) ' ' ++ text

/-- What is printed if there is no account. -/
def noAccount : CString := "Print account: There is no account.\n".toList

/-- What is printed above the accounts. -/
def heading : CString :=
  "\n".toList ++ padLeft 9 "Account".toList ++ padLeft 50 "Name".toList ++
    padLeft 10 "Balance".toList ++ padLeft 13 "In Session".toList ++ "\n".toList

/-- The columns of an account. -/
def numberColumn (temp : ℕ) : CString := padLeft 9 (toString (temp + 1)).toList

def nameColumn (name : CString) : CString := padLeft 50 name

def balanceColumn (balance : F) : CString := padLeft 10 (Arithmetic.text balance) ++ " ".toList

/-- The last column with the end of the line. It stays empty if the account is found in neither
of the two states. -/
def sessionColumn : Option InSession → CString
  | some .inSession => padLeft 13 "YES".toList ++ "\n".toList
  | some .notInSession => padLeft 13 "NO".toList ++ "\n".toList
  | none => "\n".toList

/-- The points of `print_account` between two accesses; `read` are the characters of the name that
`printf` has read. -/
inductive PrintPc
  | sleep
  | lock
  | count
  | test (temp : ℕ)
  | name (temp : ℕ) (read : CString)
  | balance (temp : ℕ)
  | inSession (temp : ℕ)
  | notInSession (temp : ℕ)
  | unlock
  | stopped
  deriving DecidableEq, Repr

/-- The points at which the printer holds the lock of new accounts. -/
def PrintPc.locked : PrintPc → Bool
  | .sleep | .lock | .stopped => false
  | _ => true

/-- The printer, with what it has printed since it took the lock. -/
structure Printer where
  pc : PrintPc
  text : CString
  deriving DecidableEq, Repr

/-- Print some text and go on. -/
def Printer.print (pr : Printer) (text : CString) (pc : PrintPc) : Printer := ⟨pc, pr.text ++ text⟩

/-- **One step of `print_account`**; `stop` is `server_stop_signal`, which is read after the
sleep. It shows the report when the lock is given back. -/
def printAccount (parent : ℕ) (stop : Bool) (sh : ServerSession F) (pr : Printer) :
    Option (ServerSession F × Printer × Option CString) :=
  match pr.pc with
  | .sleep => some (sh, { pr with pc := if stop then .stopped else .lock }, none)
  | .lock => some (sh.setLock (some parent), ⟨.count, []⟩, none)
  | .count =>
    if sh.accountsNo = 0 then some (sh, pr.print noAccount .unlock, none)
    else some (sh, pr.print heading (.test 0), none)
  | .test temp =>
    if temp < sh.accountsNo then
      some (sh, pr.print (numberColumn temp) (.name temp []), none)
    else some (sh, { pr with pc := .unlock }, none)
  | .name temp read => do
    let account ← sh.account? temp
    if nameMaxLength ≤ read.length then none
    else if account.name read.length = nul then
      some (sh, pr.print (nameColumn read) (.balance temp), none)
    else some (sh, { pr with pc := .name temp (read ++ [account.name read.length]) }, none)
  | .balance temp => do
    let account ← sh.account? temp
    some (sh, pr.print (balanceColumn account.balance) (.inSession temp), none)
  | .inSession temp => do
    let account ← sh.account? temp
    if account.inSession = .inSession then
      some (sh, pr.print (sessionColumn (some .inSession)) (.test (temp + 1)), none)
    else some (sh, { pr with pc := .notInSession temp }, none)
  | .notInSession temp => do
    let account ← sh.account? temp
    if account.inSession = .notInSession then
      some (sh, pr.print (sessionColumn (some .notInSession)) (.test (temp + 1)), none)
    else some (sh, pr.print (sessionColumn none) (.test (temp + 1)), none)
  | .unlock => some (sh.setLock none, ⟨.sleep, []⟩, some pr.text)
  | .stopped => none

/-! ### The server with its printer -/

/-- The processes of the clients and the printer. -/
structure Watched (F : Type) where
  server : Configuration ℕ (ServerSession F) (Client F)
  printer : Printer

/-- A step of a client, or of the printer. -/
inductive WatchedOp
  | client (p : ℕ) (i : Input)
  | print (stop : Bool)
  deriving DecidableEq

/-- What a step shows. -/
inductive WatchedOut
  | client (out : Output)
  | print (report : Option CString)
  deriving DecidableEq

/-- **The server with its printer**, which runs as the process `parent`. -/
def watched (sendable : Request → Prop) (parent : ℕ) :
    Machine (Watched F) WatchedOp WatchedOut where
  legal s op :=
    match op with
    | .client p i => p ≠ parent ∧ (program sendable).machine.legal s.server (p, i)
    | .print _ => s.printer.pc ≠ .stopped ∧
        (s.printer.pc = .lock → s.server.shared.newAccountLockMutex = none)
  step s op :=
    match op with
    | .client p i => do
      let (server, out) ← (program sendable).machine.step s.server (p, i)
      some (⟨server, s.printer⟩, .client out)
    | .print stop => do
      let (shared, printer, report) ← printAccount parent stop s.server.shared s.printer
      some (⟨{ s.server with shared := shared }, printer⟩, .print report)

instance (sendable : Request → Prop) [DecidablePred sendable] (parent : ℕ) (s : Watched F) :
    (op : WatchedOp) → Decidable ((watched sendable parent).legal s op)
  | .client p i =>
    inferInstanceAs (Decidable (p ≠ parent ∧ (program sendable).machine.legal s.server (p, i)))
  | .print _ =>
    inferInstanceAs (Decidable (s.printer.pc ≠ .stopped ∧
      (s.printer.pc = .lock → s.server.shared.newAccountLockMutex = none)))

/-- The server and its printer before any client connects. -/
def watchedStart (sendable : Request → Prop) : Watched F := ⟨start sendable, ⟨.sleep, []⟩⟩

/-- The steps of a run. -/
abbrev WatchedStep (F : Type) := Event (Watched F) WatchedOp WatchedOut

variable {p parent : ℕ} {holder : Option ℕ} {sh sh' : ServerSession F} {c c' : Client F} {i : Input}
  {out : Output} {sendable : Request → Prop} {tr : List (WatchedStep F)} {s : Watched F}
  {e : WatchedStep F} {stop : Bool} {report : Option CString} {pr pr' : Printer} {a : ℕ}

/-- **The server as its clients see it**: the printer does not hold the lock. -/
def Watched.unwatched (s : Watched F) : Configuration ℕ (ServerSession F) (Client F) :=
  if s.printer.pc.locked then ⟨s.server.shared.setLock none, s.server.locals⟩ else s.server

/-! ### The clients and the lock -/

/-- The accounts are there whoever holds the lock. -/
theorem account?_setLock : (sh.setLock holder).account? a = sh.account? a := rfl

theorem modify_setLock (f : Account F → Account F) :
    (sh.setLock holder).modify a f = (sh.modify a f).setLock holder := rfl

/-- What a step does with another holder of the lock. -/
def withLock (holder : Option ℕ) (r : Option (Stepped F)) : Option (Stepped F) :=
  r.map fun r => (r.1.setLock holder, r.2)

/-- A step that only moves the process does not see the lock. -/
theorem move_setLock : move (sh.setLock holder) c = withLock holder (move sh c) := rfl

/-- Neither does a step in two parts that do not. -/
private theorem bind_setLock {α : Type} (x : Option α) {f g : α → Option (Stepped F)}
    (h : ∀ y, g y = withLock holder (f y)) : x.bind g = withLock holder (x.bind f) := by
  cases x with
  | none => rfl
  | some y => exact h y

/-- Nor one by cases. -/
private theorem ite_setLock {P : Prop} [Decidable P] {x y x' y' : Option (Stepped F)}
    (hx : x' = withLock holder x) (hy : y' = withLock holder y) :
    (if P then x' else y') = withLock holder (if P then x else y) := by
  subst hx hy
  split <;> rfl

private theorem check_setLock : check (sh.setLock holder) c = withLock holder (check sh c) := by
  unfold check
  cases c.clientAccount with
  | none => rfl
  | some index => exact bind_setLock _ fun account => ite_setLock rfl rfl

/-- The points of `client_start` outside the lock. -/
private theorem clientStart_setLock {l : StartPc} (hlocks : (Pc.clientStart l : Pc F).locks = false)
    (hlocked : (Pc.clientStart l : Pc F).locked = false) :
    clientStart p (sh.setLock holder) c i l = withLock holder (clientStart p sh c i l) := by
  cases l with
  | lock => cases hlocks
  | count | unlock => cases hlocked
  | search n index j => exact bind_setLock _ fun r => rfl
  | trylock index => exact bind_setLock _ fun account => ite_setLock rfl rfl
  | wait index => cases i <;> rfl
  | enter => exact bind_setLock _ fun index => bind_setLock _ fun account => rfl

private theorem clientDebit_setLock (l : DebitPc F) :
    clientDebit (sh.setLock holder) c l = withLock holder (clientDebit sh c l) := by
  refine bind_setLock _ fun index => bind_setLock _ fun account => ?_
  cases l with
  | test => exact ite_setLock rfl rfl
  | load | store | refused => rfl

private theorem clientCredit_setLock (l : CreditPc F) :
    clientCredit (sh.setLock holder) c l = withLock holder (clientCredit sh c l) := by
  refine bind_setLock _ fun index => bind_setLock _ fun account => ?_
  cases l <;> rfl

private theorem clientBalance_setLock (l : BalancePc F) :
    clientBalance (sh.setLock holder) c l = withLock holder (clientBalance sh c l) := by
  refine bind_setLock _ fun index => bind_setLock _ fun account => ?_
  cases l <;> rfl

/-- The end of a session. -/
private theorem setNotInSession_setLock (ending : Ending) (l : EndPc) :
    setNotInSession (sh.setLock holder) c ending l =
      withLock holder (setNotInSession sh c ending l) := by
  refine bind_setLock _ fun index => bind_setLock _ fun account => ?_
  cases l <;> rfl

/-- **A step that neither takes nor gives back the lock** does not see who holds it. -/
theorem client_setLock (hlocks : c.pc.locks = false) (hlocked : c.pc.locked = false) :
    client p (sh.setLock holder) c i = withLock holder (client p sh c i) := by
  unfold client
  cases hpc : c.pc with
  | select => cases i <;> rfl
  | listen => cases i <;> rfl
  | check => exact check_setLock
  | clientOpen l =>
    rw [hpc] at hlocks hlocked
    cases l with
    | lock => cases hlocks
    | _ => cases hlocked
  | clientStart l =>
    rw [hpc] at hlocks hlocked
    exact clientStart_setLock hlocks hlocked
  | clientDebit l => exact clientDebit_setLock l
  | clientCredit l => exact clientCredit_setLock l
  | balance l => exact clientBalance_setLock l
  | setNotInSession ending l => exact setNotInSession_setLock ending l
  | reply =>
    cases i with
    | write written => exact ite_setLock rfl rfl
    | _ => rfl
  | timeOut => cases i <;> rfl
  | exited => rfl

/-! ### The cases of a step of the printer -/

/-- **What the printer does** at each of its points, `text` being what it has printed. -/
inductive PrintStep (parent : ℕ) (sh : ServerSession F) (text : CString) :
    PrintPc → ServerSession F → Printer → Option CString → Prop
  | sleep : PrintStep parent sh text .sleep sh ⟨.lock, text⟩ none
  | stop : PrintStep parent sh text .sleep sh ⟨.stopped, text⟩ none
  | lock : PrintStep parent sh text .lock (sh.setLock (some parent)) ⟨.count, []⟩ none
  | empty (h : sh.accountsNo = 0) :
      PrintStep parent sh text .count sh ⟨.unlock, text ++ noAccount⟩ none
  | heading (h : sh.accountsNo ≠ 0) :
      PrintStep parent sh text .count sh ⟨.test 0, text ++ heading⟩ none
  | number {temp : ℕ} (h : temp < sh.accountsNo) :
      PrintStep parent sh text (.test temp) sh ⟨.name temp [], text ++ numberColumn temp⟩ none
  | last {temp : ℕ} (h : ¬temp < sh.accountsNo) :
      PrintStep parent sh text (.test temp) sh ⟨.unlock, text⟩ none
  | name {temp : ℕ} {read : CString} (h : (sh.accounts temp).name read.length = nul) :
      PrintStep parent sh text (.name temp read) sh ⟨.balance temp, text ++ nameColumn read⟩ none
  | character {temp : ℕ} {read : CString} (h : (sh.accounts temp).name read.length ≠ nul) :
      PrintStep parent sh text (.name temp read) sh
        ⟨.name temp (read ++ [(sh.accounts temp).name read.length]), text⟩ none
  | balance (temp : ℕ) : PrintStep parent sh text (.balance temp) sh
      ⟨.inSession temp, text ++ balanceColumn (sh.accounts temp).balance⟩ none
  | inSession {temp : ℕ} (h : (sh.accounts temp).inSession = .inSession) :
      PrintStep parent sh text (.inSession temp) sh
        ⟨.test (temp + 1), text ++ sessionColumn (some .inSession)⟩ none
  | again {temp : ℕ} (h : (sh.accounts temp).inSession ≠ .inSession) :
      PrintStep parent sh text (.inSession temp) sh ⟨.notInSession temp, text⟩ none
  | notInSession {temp : ℕ} (h : (sh.accounts temp).inSession = .notInSession) :
      PrintStep parent sh text (.notInSession temp) sh
        ⟨.test (temp + 1), text ++ sessionColumn (some .notInSession)⟩ none
  | neither {temp : ℕ} (h : (sh.accounts temp).inSession ≠ .notInSession) :
      PrintStep parent sh text (.notInSession temp) sh
        ⟨.test (temp + 1), text ++ sessionColumn none⟩ none
  | unlock : PrintStep parent sh text .unlock (sh.setLock none) ⟨.sleep, []⟩ (some text)

/-- A step of the printer is one of its cases. -/
private theorem printAccount_cases (hs : printAccount parent stop sh pr = some (sh', pr', report)) :
    PrintStep parent sh pr.text pr.pc sh' pr' report := by
  obtain ⟨pc, text⟩ := pr
  cases pc with
  | sleep =>
    cases hs
    cases stop with
    | true => exact .stop
    | false => exact .sleep
  | lock =>
    cases hs
    exact .lock
  | count =>
    simp only [printAccount] at hs
    split_ifs at hs with hzero
    · cases hs
      exact .empty hzero
    · cases hs
      exact .heading hzero
  | test temp =>
    simp only [printAccount] at hs
    split_ifs at hs with hlt
    · cases hs
      exact .number hlt
    · cases hs
      exact .last hlt
  | name temp read =>
    obtain ⟨account, haccount, hs⟩ := Option.bind_eq_some_iff.mp hs
    obtain rfl := account?_eq_some haccount
    split_ifs at hs with hlong hnul
    · cases hs
      exact .name hnul
    · cases hs
      exact .character hnul
  | balance temp =>
    obtain ⟨account, haccount, hs⟩ := Option.bind_eq_some_iff.mp hs
    obtain rfl := account?_eq_some haccount
    cases hs
    exact .balance temp
  | inSession temp =>
    obtain ⟨account, haccount, hs⟩ := Option.bind_eq_some_iff.mp hs
    obtain rfl := account?_eq_some haccount
    split_ifs at hs with hin
    · cases hs
      exact .inSession hin
    · cases hs
      exact .again hin
  | notInSession temp =>
    obtain ⟨account, haccount, hs⟩ := Option.bind_eq_some_iff.mp hs
    obtain rfl := account?_eq_some haccount
    split_ifs at hs with hnot
    · cases hs
      exact .notInSession hnot
    · cases hs
      exact .neither hnot
  | unlock =>
    cases hs
    exact .unlock
  | stopped => cases hs

/-! ### The clients do not see the printer -/

/-- The steps of the clients among those of a run, with what they show. -/
def clientSteps (tr : List (WatchedStep F)) : List ((ℕ × Input) × Output) :=
  tr.filterMap fun e =>
    match e.op, e.out with
    | .client p i, .client out => some ((p, i), out)
    | _, _ => none

/-- **A run of the server that shows the same** of the clients, and leads to where they are. -/
def Unwatched (sendable : Request → Prop) (tr : List (WatchedStep F)) (s : Watched F) : Prop :=
  ∃ tr', Run (program sendable).machine (start sendable) tr' s.unwatched ∧
    tr'.map (fun e => (e.op, e.out)) = clientSteps tr

theorem unwatched_of_locked (h : s.printer.pc.locked = true) :
    s.unwatched = ⟨s.server.shared.setLock none, s.server.locals⟩ := if_pos h

theorem unwatched_of_not_locked (h : s.printer.pc.locked = false) : s.unwatched = s.server :=
  if_neg (by simp [h])

/-- A step of a client is a step of the server, with the printer standing still. -/
theorem clientStep_cases (he : e.Occurs (watched sendable parent)) (hop : e.op = .client p i) :
    ∃ out, e.out = .client out ∧ e.post.printer = e.pre.printer ∧ p ≠ parent ∧
      Event.Occurs (program sendable).machine ⟨e.pre.server, (p, i), out, e.post.server⟩ := by
  obtain ⟨hlegal, hstep⟩ := he
  rw [hop] at hlegal hstep
  obtain ⟨⟨server, out⟩, hserver, heq⟩ := Option.bind_eq_some_iff.mp hstep
  obtain ⟨hpost, hout⟩ := Prod.mk.inj (Option.some.inj heq)
  rw [← hpost, ← hout]
  exact ⟨out, rfl, rfl, hlegal.1, hlegal.2, hserver⟩

/-- **A client runs as if nobody printed**, also while the printer holds the lock. -/
theorem unwatched_clientStep (hinv : ∀ p, Assertion p e.pre.unwatched.shared
      (e.pre.unwatched.locals p)) (hheld : e.pre.printer.pc.locked = true →
      e.pre.server.shared.newAccountLockMutex = some parent)
    (he : e.Occurs (watched sendable parent)) (hop : e.op = .client p i) :
    (∃ out, e.out = .client out ∧ Event.Occurs (program sendable).machine
        ⟨e.pre.unwatched, (p, i), out, e.post.unwatched⟩) ∧
      e.post.printer = e.pre.printer ∧ (e.pre.printer.pc.locked = true →
        e.post.server.shared.newAccountLockMutex = some parent) := by
  obtain ⟨out, hout, hprinter, -, hocc⟩ := clientStep_cases he hop
  rcases hlocked : e.pre.printer.pc.locked with _ | _
  · rw [unwatched_of_not_locked hlocked, unwatched_of_not_locked (hprinter ▸ hlocked)]
    exact ⟨⟨out, hout, hocc⟩, hprinter, nofun⟩
  · have hheld := hheld hlocked
    have hpre := unwatched_of_locked hlocked
    have hassert := (hinv p).lock
    rw [hpre] at hassert
    -- the client is neither at a lock, as that is taken, nor does it hold it
    have hlocks : (e.pre.server.locals p).pc.locks = false := by
      rw [Bool.eq_false_iff]
      intro hlocks
      have hfree := hocc.legal.free hlocks
      rw [hheld] at hfree
      cases hfree
    have hnot : (e.pre.server.locals p).pc.locked = false := by
      rw [Bool.eq_false_iff]
      exact fun h => nomatch hassert.mpr h
    have hstep := hocc.localStep
    change client p e.pre.server.shared (e.pre.server.locals p) i =
      some (e.post.server.shared, e.post.server.locals p, out) at hstep
    have hlocals : e.post.server.locals =
        Function.update e.pre.server.locals p (e.post.server.locals p) := by
      funext q
      by_cases hq : q = p
      · rw [hq, Function.update_self]
      · rw [Function.update_of_ne hq]
        exact hocc.locals_of_ne hq
    have hen : Enabled sendable e.pre.unwatched.shared (e.pre.unwatched.locals p) i := by
      rw [hpre]
      exact ⟨hocc.legal.takes, fun h => absurd h (by simp [hlocks]), hocc.legal.sent⟩
    refine ⟨⟨out, hout, hen, ?_⟩, hprinter, fun _ => ?_⟩
    · rw [hpre, unwatched_of_locked (hprinter ▸ hlocked)]
      change ((client p (e.pre.server.shared.setLock none) (e.pre.server.locals p) i).map _) = _
      rw [client_setLock hlocks hnot, hstep]
      simp only [withLock, Option.map_some, ← hlocals]
    · have hsame : e.pre.server.shared.setLock (some parent) = e.pre.server.shared := by
        rw [← hheld]
        rfl
      have hstep' : client p (e.pre.server.shared.setLock (some parent)) (e.pre.server.locals p) i =
          _ := client_setLock hlocks hnot
      rw [hsame, hstep] at hstep'
      have hshared := (Prod.mk.inj (Option.some.inj hstep')).1
      rw [hshared]
      rfl

/-- A step of the printer is one of `print_account`. -/
theorem printStep_cases (he : e.Occurs (watched sendable parent)) (hop : e.op = .print stop) :
    ∃ report, e.out = .print report ∧ e.post.server.locals = e.pre.server.locals ∧
      (e.pre.printer.pc = .lock → e.pre.server.shared.newAccountLockMutex = none) ∧
      PrintStep parent e.pre.server.shared e.pre.printer.text e.pre.printer.pc
        e.post.server.shared e.post.printer report := by
  obtain ⟨hlegal, hstep⟩ := he
  rw [hop] at hlegal hstep
  obtain ⟨⟨shared, printer, report⟩, hprint, heq⟩ := Option.bind_eq_some_iff.mp hstep
  obtain ⟨hpost, hout⟩ := Prod.mk.inj (Option.some.inj heq)
  rw [← hpost, ← hout]
  exact ⟨report, rfl, rfl, hlegal.2, printAccount_cases hprint⟩

/-- **The clients do not see what the printer does.** -/
theorem unwatched_printStep (hheld : e.pre.printer.pc.locked = true →
      e.pre.server.shared.newAccountLockMutex = some parent)
    (he : e.Occurs (watched sendable parent)) (hop : e.op = .print stop) :
    e.post.unwatched = e.pre.unwatched ∧ (e.post.printer.pc.locked = true →
      e.post.server.shared.newAccountLockMutex = some parent) := by
  obtain ⟨report, -, hlocals, hfree, hstep⟩ := printStep_cases he hop
  obtain ⟨⟨⟨sh, locals⟩, ⟨pc, text⟩⟩, op, out, ⟨⟨sh', locals'⟩, pr'⟩⟩ := e
  obtain rfl : locals' = locals := hlocals
  dsimp only at hstep hfree hheld ⊢
  cases hstep with
  | sleep | stop => exact ⟨rfl, nofun⟩
  | lock =>
    refine ⟨?_, fun _ => rfl⟩
    have hnone : (sh.setLock (some parent)).setLock none = sh := by
      rw [← hfree rfl]
      rfl
    exact congrArg (Configuration.mk · locals') hnone
  | unlock => exact ⟨rfl, nofun⟩
  | _ => exact ⟨rfl, fun _ => hheld rfl⟩

/-- The run of the server, with the printer's right to print. -/
structure Watches (sendable : Request → Prop) (parent : ℕ) (tr : List (WatchedStep F))
    (s : Watched F) : Prop where
  unwatched : Unwatched sendable tr s
  held : s.printer.pc.locked = true → s.server.shared.newAccountLockMutex = some parent

/-- **The server with its printer runs like the server**: in every run the clients take the steps
of a run of the server, and show the same. -/
theorem run_of_watched (hr : Run (watched sendable parent) (watchedStart sendable) tr s) :
    Watches sendable parent tr s := by
  induction hr with
  | nil => exact ⟨⟨[], .nil, rfl⟩, nofun⟩
  | @snoc tr e hr he ih =>
    obtain ⟨⟨tr', hrun, hsteps⟩, hheld⟩ := ih
    have happend : clientSteps (tr ++ [e]) = clientSteps tr ++ clientSteps [e] :=
      List.filterMap_append
    rcases hop : e.op with ⟨p, i⟩ | stop
    · obtain ⟨⟨out, hout, hocc⟩, hprinter, hheld'⟩ :=
        unwatched_clientStep (invariant_of_run hrun).2 hheld he hop
      refine ⟨⟨tr' ++ [⟨e.pre.unwatched, (p, i), out, e.post.unwatched⟩], hrun.snoc hocc, ?_⟩,
        fun hlocked => hheld' (hprinter ▸ hlocked)⟩
      rw [happend, List.map_append, hsteps]
      simp [clientSteps, hop, hout]
    · obtain ⟨hsame, hheld'⟩ := unwatched_printStep hheld he hop
      refine ⟨⟨tr', hsame ▸ hrun, ?_⟩, hheld'⟩
      rw [happend, hsteps]
      simp [clientSteps, hop]

end Cs214.MultithreadedBanking

import Cs214.Library.Interleaving
import Cs214.MultithreadedBanking.Request

/-!
# The server and its clients

The server keeps the accounts in an array that all `client()` processes share. A process is at a
point of its code (`Pc`) between two accesses to the shared memory, and a step is one access:
a lock or an unlock, a load or a store of a field, of `accounts_no` or of one character of a
name. What a process does with its own variables belongs to the access before.

The results of `select`, `read` and `write` are given by the environment. `read` may give any
request, also a stale or partial one, out of those that are `sendable`. A `write` that fails sends
nothing, any other the whole response.

An access through a null pointer, outside the array or outside a name is a fault (`none`).
Mutexes hold the process that locked them and keep all others out, although the source initialises
them without the attribute that shares them between processes. The arithmetic of the balances is a
parameter.
-/

namespace Cs214.MultithreadedBanking

open Tokenizer (CString nul)

set_option linter.unusedSectionVars false

variable {F : Type} [Arithmetic F]

/-! ### The shared memory -/

/-- The flag `in_session` of an account. -/
inductive InSession
  | notInSession
  | inSession
  deriving DecidableEq, Repr

/-- `account_t`. -/
@[ext] structure Account (F : Type) where
  name : ℕ → Char
  balance : F
  accountSessionMutex : Option ℕ
  inSession : InSession

/-- `server_session_t`. -/
@[ext] structure ServerSession (F : Type) where
  accounts : ℕ → Account F
  accountsNo : ℕ
  newAccountLockMutex : Option ℕ

/-- The memory that `init_session_shared_mem` leaves, all zero with the mutexes free. -/
def initSessionSharedMem : ServerSession F :=
  ⟨fun _ => ⟨fun _ => nul, Arithmetic.zero, none, .notInSession⟩, 0, none⟩

namespace ServerSession

variable (sh : ServerSession F) (a : ℕ)

/-- An entry of the array. -/
def account? : Option (Account F) := if a < maxAccount then some (sh.accounts a) else none

/-- Store into an entry of the array. -/
def modify (f : Account F → Account F) : ServerSession F :=
  { sh with accounts := Function.update sh.accounts a (f (sh.accounts a)) }

@[simp] theorem modify_newAccountLockMutex (f : Account F → Account F) :
    (sh.modify a f).newAccountLockMutex = sh.newAccountLockMutex := rfl

@[simp] theorem modify_accounts_self (f : Account F → Account F) :
    (sh.modify a f).accounts a = f (sh.accounts a) := Function.update_self ..

theorem modify_accounts_of_ne (f : Account F → Account F) {b : ℕ} (h : b ≠ a) :
    (sh.modify a f).accounts b = sh.accounts b := Function.update_of_ne h ..

end ServerSession

/-- The character at a position of a string, NUL from its end on. -/
def charAt (s : CString) (j : ℕ) : Char := s.getD j nul

/-- The string in a name field. -/
def nameText (name : ℕ → Char) : CString :=
  ((List.range nameMaxLength).map name).takeWhile (· != nul)

/-! ### The points of the code -/

/-- `client_open`, with `search_account` and `account_open`. -/
inductive OpenPc
  | lock
  | full
  | count
  | search (accountsNo index j : ℕ)
  | found (index : ℕ)
  | mutex (index : ℕ)
  | name (index j : ℕ)
  | balance (index : ℕ)
  | session (index : ℕ)
  | loadNo
  | storeNo (n : ℕ)
  | unlock (opened : Bool)
  deriving DecidableEq, Repr

/-- `client_start`, with `search_account`. -/
inductive StartPc
  | lock
  | count
  | unlock (accountsNo : ℕ)
  | search (accountsNo index j : ℕ)
  | trylock (index : ℕ)
  | wait (index : ℕ)
  | enter
  deriving DecidableEq, Repr

/-- `client_debit` and `account_debit`. -/
inductive DebitPc (F : Type)
  | test
  | load
  | store (balance : F)
  | refused
  deriving DecidableEq, Repr

/-- `client_credit` and `account_credit`. -/
inductive CreditPc (F : Type)
  | load
  | store (balance : F)
  deriving DecidableEq, Repr

/-- The case `BALANCE`. -/
inductive BalancePc (F : Type)
  | load
  | name (balance : F)
  deriving DecidableEq, Repr

/-- The four calls of `set_not_in_session`. -/
inductive Ending
  | disconnect
  | finish
  | exit
  | timeOut
  deriving DecidableEq, Repr

/-- `set_not_in_session`. -/
inductive EndPc
  | store
  | unlock
  deriving DecidableEq, Repr

/-- **The points of `client()`** between two accesses. -/
inductive Pc (F : Type)
  | select
  | listen
  | check
  | clientOpen (l : OpenPc)
  | clientStart (l : StartPc)
  | clientDebit (l : DebitPc F)
  | clientCredit (l : CreditPc F)
  | balance (l : BalancePc F)
  | setNotInSession (ending : Ending) (l : EndPc)
  | reply
  | timeOut
  | exited
  deriving DecidableEq, Repr

/-- The variables of `client()`; `clientAccount` is the index of the account pointed to. -/
structure Client (F : Type) where
  pc : Pc F
  clientAccount : Option ℕ
  request : Request
  response : Response

/-- A process at its start; the request and the response are read only after they are set. -/
def Client.init : Client F := ⟨.select, none, ⟨.other 0, []⟩, formResponse .success []⟩

/-- Go to a point of the code. -/
def Client.goto (c : Client F) (pc : Pc F) : Client F := { c with pc := pc }

/-- Form the response and go on to write it. -/
def Client.respond (c : Client F) (code : ResponseCode) (message : CString) : Client F :=
  { c with pc := .reply, response := formResponse code message }

/-- The results of `select`, `read` and `write`, and `go` where no call is made. -/
inductive Input
  | select (activeSockets : ℤ)
  | read (byteRead : ℤ) (request : Request)
  | write (written : ℤ)
  | go
  deriving DecidableEq, Repr

/-- The responses that are written. -/
inductive Output
  | silent
  | wrote (response : Response)
  deriving DecidableEq, Repr

/-- What a step of a process gives. -/
abbrev Stepped (F : Type) := ServerSession F × Client F × Output

/-- What a `write` of a response sends; one that fails sends nothing. -/
def write (response : Response) (written : ℤ) : Output :=
  if written < 0 then .silent else .wrote response

/-- Something has been sent only if it was the response. -/
theorem eq_of_write_eq_wrote {response r : Response} {written : ℤ}
    (h : write response written = .wrote r) : response = r := by
  unfold write at h
  split at h
  · cases h
  · exact Output.wrote.inj h

/-- A step that only moves the process. -/
def move (sh : ServerSession F) (c : Client F) : Option (Stepped F) := some (sh, c, .silent)

/-! ### `search_account` -/

/-- Where the search is: comparing a character of a name, or done; none is its `-1`. -/
inductive Search
  | compare (index j : ℕ)
  | result (index : Option ℕ)
  deriving DecidableEq, Repr

/-- The head of the loop. -/
def searchFrom (accountsNo index : ℕ) : Search :=
  if index < accountsNo then .compare index 0 else .result (some index)

/-- The start of the search. -/
def searchAccount (accountsNo : ℕ) : Search :=
  if accountsNo = 0 then .result none else searchFrom accountsNo 0

/-- One character of `strcmp(accounts[index].name, name)`. -/
def searchStep (sh : ServerSession F) (accountsNo index j : ℕ) (name : CString) :
    Option Search := do
  let account ← sh.account? index
  if nameMaxLength ≤ j then none
  else if account.name j ≠ charAt name j then return searchFrom accountsNo (index + 1)
  else if charAt name j = nul then return .result (some index)
  else return .compare index (j + 1)

/-! ### `client_open` -/

/-- The search of `client_open` and its first test. -/
def openSearch (c : Client F) (accountsNo : ℕ) : Search → Client F
  | .compare index j => c.goto (.clientOpen (.search accountsNo index j))
  | .result none => c.goto (.clientOpen (.mutex 0))
  | .result (some index) => c.goto (.clientOpen (.found index))

/-- A response that is formed before the lock is given back. -/
def openRefuse (c : Client F) (message : CString) : Client F :=
  { c with pc := .clientOpen (.unlock false), response := formResponse .cannotOpen message }

/-- Store into an account that is opened. -/
def openStore (sh : ServerSession F) (c : Client F) (index : ℕ) (f : Account F → Account F)
    (next : OpenPc) : Option (Stepped F) := do
  let _ ← sh.account? index
  move (sh.modify index f) (c.goto (.clientOpen next))

def clientOpen (p : ℕ) (sh : ServerSession F) (c : Client F) : OpenPc → Option (Stepped F)
  | .lock => move { sh with newAccountLockMutex := some p } (c.goto (.clientOpen .full))
  | .full =>
    if sh.accountsNo = maxAccount then move sh (openRefuse c "Database is full.".toList)
    else move sh (c.goto (.clientOpen .count))
  | .count => move sh (openSearch c sh.accountsNo (searchAccount sh.accountsNo))
  | .search accountsNo index j => do
    let r ← searchStep sh accountsNo index j c.request.message
    move sh (openSearch c accountsNo r)
  | .found index =>
    if (index : ℤ) ≤ sh.accountsNo - 1 then
      move sh (openRefuse c "Account's already created.".toList)
    else move sh (c.goto (.clientOpen (.mutex index)))
  | .mutex index =>
    openStore sh c index (fun a => { a with accountSessionMutex := none }) (.name index 0)
  | .name index j =>
    openStore sh c index
      (fun a => { a with name := Function.update a.name j (charAt c.request.message j) })
      (if j + 1 < nameMaxLength then .name index (j + 1) else .balance index)
  | .balance index =>
    openStore sh c index (fun a => { a with balance := Arithmetic.zero }) (.session index)
  | .session index =>
    openStore sh c index (fun a => { a with inSession := .notInSession }) .loadNo
  | .loadNo => move sh (c.goto (.clientOpen (.storeNo sh.accountsNo)))
  | .storeNo n => move { sh with accountsNo := n + 1 } (c.goto (.clientOpen (.unlock true)))
  | .unlock opened =>
    move { sh with newAccountLockMutex := none }
      (if opened then
        c.respond .success ("Account ".toList ++ c.request.message ++ " opened".toList)
      else c.goto .reply)

/-! ### `client_start` -/

/-- The search of `client_start` and its tests. -/
def startSearch (c : Client F) (accountsNo : ℕ) : Search → Client F
  | .compare index j => c.goto (.clientStart (.search accountsNo index j))
  | .result none => c.respond .cannotStart "Account is not found.".toList
  | .result (some index) =>
    if index = accountsNo then c.respond .cannotStart "Account is not found.".toList
    else c.goto (.clientStart (.trylock index))

/-- `client_start`; whether the word to wait could be written makes no difference to it. -/
def clientStart (p : ℕ) (sh : ServerSession F) (c : Client F) (i : Input) :
    StartPc → Option (Stepped F)
  | .lock => move { sh with newAccountLockMutex := some p } (c.goto (.clientStart .count))
  | .count => move sh (c.goto (.clientStart (.unlock sh.accountsNo)))
  | .unlock accountsNo =>
    move { sh with newAccountLockMutex := none }
      (startSearch c accountsNo (searchAccount accountsNo))
  | .search accountsNo index j => do
    let r ← searchStep sh accountsNo index j c.request.message
    move sh (startSearch c accountsNo r)
  | .trylock index => do
    let account ← sh.account? index
    if account.accountSessionMutex = none then
      move (sh.modify index fun a => { a with accountSessionMutex := some p })
        { c with pc := .clientStart .enter, clientAccount := some index }
    else
      move sh { c with
        pc := .clientStart (.wait index)
        response := formResponse .success "Waiting to start customer session.".toList }
  | .wait index => match i with
    | .write written =>
      some (sh, c.goto (.clientStart (.trylock index)), write c.response written)
    | _ => none
  | .enter => do
    let index ← c.clientAccount
    let _ ← sh.account? index
    move (sh.modify index fun a => { a with inSession := .inSession })
      (c.respond .success ("Account ".toList ++ c.request.message ++ " is in session.".toList))

/-! ### Transactions -/

def clientDebit (sh : ServerSession F) (c : Client F) (l : DebitPc F) : Option (Stepped F) := do
  let index ← c.clientAccount
  let account ← sh.account? index
  match l with
  | .test =>
    if Arithmetic.negative
        (Arithmetic.sub account.balance (Arithmetic.amount c.request.message)) then
      move sh (c.goto (.clientDebit .refused))
    else move sh (c.goto (.clientDebit .load))
  | .load => move sh (c.goto (.clientDebit (.store account.balance)))
  | .store balance =>
    move (sh.modify index fun a =>
        { a with balance := Arithmetic.sub balance (Arithmetic.amount c.request.message) })
      (c.respond .success
        ("Successfully debit $".toList ++ c.request.message ++ ".".toList))
  | .refused =>
    move sh (c.respond .balanceReachZero
      ("Balance reached 0. Your balance is: $".toList ++ Arithmetic.text account.balance))

def clientCredit (sh : ServerSession F) (c : Client F) (l : CreditPc F) : Option (Stepped F) := do
  let index ← c.clientAccount
  let account ← sh.account? index
  match l with
  | .load => move sh (c.goto (.clientCredit (.store account.balance)))
  | .store balance =>
    move (sh.modify index fun a =>
        { a with balance := Arithmetic.add balance (Arithmetic.amount c.request.message) })
      (c.respond .success
        ("Successfully credit $".toList ++ c.request.message ++ ".".toList))

/-- The case `BALANCE` of the switch. -/
def clientBalance (sh : ServerSession F) (c : Client F) (l : BalancePc F) : Option (Stepped F) := do
  let index ← c.clientAccount
  let account ← sh.account? index
  match l with
  | .load => move sh (c.goto (.balance (.name account.balance)))
  | .name balance =>
    move sh (c.respond .success ("Account: ".toList ++ nameText account.name ++
      ".\nYour balance is ".toList ++ Arithmetic.text balance ++ ".".toList))

/-! ### The end of a session -/

/-- What `client()` does after `set_not_in_session`; the account pointer is null by then. -/
def afterSession (c : Client F) : Ending → Client F
  | .disconnect => c.goto .exited
  | .finish => c.respond .success "Account session closed.".toList
  | .exit => c.respond .accountExit "Exit acknowledged and account session closed.".toList
  | .timeOut => c.goto .timeOut

def setNotInSession (sh : ServerSession F) (c : Client F) (ending : Ending) (l : EndPc) :
    Option (Stepped F) := do
  let index ← c.clientAccount
  let _ ← sh.account? index
  match l with
  | .store =>
    move (sh.modify index fun a => { a with inSession := .notInSession })
      (c.goto (.setNotInSession ending .unlock))
  | .unlock =>
    move (sh.modify index fun a => { a with accountSessionMutex := none })
      (afterSession { c with clientAccount := none } ending)

/-- Close the session of the client, if there is one, and go on from there. -/
def endSession (c : Client F) (ending : Ending) : Client F :=
  if c.clientAccount = none then afterSession c ending
  else c.goto (.setNotInSession ending .store)

/-! ### `client()` -/

/-- The switch for a client without a session. -/
def outOfSession (c : Client F) : Client F :=
  match c.request.code with
  | .open_ => c.goto (.clientOpen .lock)
  | .start => c.goto (.clientStart .lock)
  | .exit => c.respond .accountExit "Exit acknowledged.".toList
  | _ => c.respond .clientNotInSession
      "Please start an account before doing the transaction.".toList

/-- The switch for a client in session. -/
def inSession (c : Client F) : Client F :=
  match c.request.code with
  | .open_ => c.respond .cannotOpen "Please finish this account session first.".toList
  | .start => c.respond .cannotStart "Please finish this account session first.".toList
  | .debit => c.goto (.clientDebit .test)
  | .credit => c.goto (.clientCredit .load)
  | .balance => c.goto (.balance .load)
  | .finish => c.goto (.setNotInSession .finish .store)
  | .exit => c.goto (.setNotInSession .exit .store)
  | _ => c.respond .success "Not a valid request.".toList

/-- The condition of the loop of `client()`, by the result of `select`. -/
def afterSelect (c : Client F) (activeSockets : ℤ) : Client F :=
  if 0 < activeSockets then c.goto .listen
  else if activeSockets = 0 then endSession c .timeOut
  else c.goto .exited

/-- The request that was read, by the result of `read`. -/
def afterRead (c : Client F) (byteRead : ℤ) (request : Request) : Client F :=
  if byteRead = 0 then endSession c .disconnect
  else { c with request := request, pc := .check }

/-- `client_account == NULL || !account_is_in_session(client_account)`. -/
def check (sh : ServerSession F) (c : Client F) : Option (Stepped F) :=
  match c.clientAccount with
  | none => move sh (outOfSession c)
  | some index => do
    let account ← sh.account? index
    if account.inSession = .inSession then move sh (inSession c) else move sh (outOfSession c)

/-- The loop that writes the response, and the end of the loop of `client()`. -/
def reply (sh : ServerSession F) (c : Client F) (written : ℤ) : Option (Stepped F) :=
  if written < 0 then move sh c
  else some (sh, c.goto (if c.request.code = .exit then .exited else .select),
    .wrote c.response)

/-- The response to a client that timed out, written once. -/
def timedOut (sh : ServerSession F) (c : Client F) (written : ℤ) : Option (Stepped F) :=
  let response := formResponse .connectionTimeOut "Connection time out.".toList
  some (sh, { c with pc := .exited, response := response }, write response written)

/-- **One step of a process.** -/
def client (p : ℕ) (sh : ServerSession F) (c : Client F) (i : Input) : Option (Stepped F) :=
  match c.pc with
  | .select => match i with
    | .select activeSockets => move sh (afterSelect c activeSockets)
    | _ => none
  | .listen => match i with
    | .read byteRead request => move sh (afterRead c byteRead request)
    | _ => none
  | .check => check sh c
  | .clientOpen l => clientOpen p sh c l
  | .clientStart l => clientStart p sh c i l
  | .clientDebit l => clientDebit sh c l
  | .clientCredit l => clientCredit sh c l
  | .balance l => clientBalance sh c l
  | .setNotInSession ending l => setNotInSession sh c ending l
  | .reply => match i with
    | .write written => reply sh c written
    | _ => none
  | .timeOut => match i with
    | .write written => timedOut sh c written
    | _ => none
  | .exited => none

/-! ### The machine -/

/-- Whether an input is what a point of the code waits for. -/
def Pc.takes : Pc F → Input → Bool
  | .select, .select _ => true
  | .listen, .read _ _ => true
  | .clientStart (.wait _), .write _ => true
  | .reply, .write _ => true
  | .timeOut, .write _ => true
  | .select, _ | .listen, _ | .clientStart (.wait _), _ | .reply, _ | .timeOut, _ => false
  | .exited, _ => false
  | _, .go => true
  | _, _ => false

/-- `pthread_mutex_lock` waits until the mutex is free. -/
def Pc.locks : Pc F → Bool
  | .clientOpen .lock | .clientStart .lock => true
  | _ => false

/-- A request that is received is one of those sent. -/
def Input.sent (sendable : Request → Prop) : Input → Prop
  | .read byteRead request => byteRead ≠ 0 → sendable request
  | _ => True

/-- The steps a process can take: the environment gives what its point of the code waits for, and
a mutex that is locked is free. -/
structure Enabled (sendable : Request → Prop) (sh : ServerSession F) (c : Client F) (i : Input) :
    Prop where
  takes : c.pc.takes i = true
  free : c.pc.locks = true → sh.newAccountLockMutex = none
  sent : i.sent sendable

instance (sendable : Request → Prop) [DecidablePred sendable] :
    DecidablePred (Input.sent sendable)
  | .read byteRead request => inferInstanceAs (Decidable (byteRead ≠ 0 → sendable request))
  | .select _ => inferInstanceAs (Decidable True)
  | .write _ => inferInstanceAs (Decidable True)
  | .go => inferInstanceAs (Decidable True)

instance (sendable : Request → Prop) [DecidablePred sendable] (sh : ServerSession F) (c : Client F)
    (i : Input) : Decidable (Enabled sendable sh c i) :=
  decidable_of_iff (c.pc.takes i = true ∧
      (c.pc.locks = true → sh.newAccountLockMutex = none) ∧ i.sent sendable)
    ⟨fun h => ⟨h.1, h.2.1, h.2.2⟩, fun h => ⟨h.takes, h.free, h.sent⟩⟩

/-- **The processes of the server**, whose clients send the requests `sendable`. -/
def program (sendable : Request → Prop) : Program ℕ (ServerSession F) (Client F) Input Output where
  init := .init
  enabled _ := Enabled sendable
  step := client

instance (sendable : Request → Prop) [DecidablePred sendable] (p : ℕ) (sh : ServerSession F)
    (c : Client F) (i : Input) : Decidable ((program sendable).enabled p sh c i) :=
  inferInstanceAs (Decidable (Enabled sendable sh c i))

/-- The server before any client connects. -/
def start (sendable : Request → Prop) : Configuration ℕ (ServerSession F) (Client F) :=
  (program sendable).start initSessionSharedMem

/-- The steps of a run: who took it, with what input, and what was written. -/
abbrev Step (F : Type) := Event (Configuration ℕ (ServerSession F) (Client F)) (ℕ × Input) Output

end Cs214.MultithreadedBanking

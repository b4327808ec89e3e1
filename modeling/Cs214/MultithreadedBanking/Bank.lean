import Cs214.Library.Interleaving
import Cs214.MultithreadedBanking.Model

/-!
# The bank the server is meant to be

What the clients should see, with nothing of how the server does it: the books list the accounts
by their names, and a request is carried out at once, in a single step between its receipt and its
answer. A client whose START finds the account taken is told to wait, and its request is carried
out again. The word to wait, and the word that the time is over, may fail to get out; every other
answer does, in the end.

The server's `client()` processes are compared with this program in `Atomic`.
-/

namespace Cs214.MultithreadedBanking

open Tokenizer (CString)

set_option linter.unusedSectionVars false

variable {F : Type} [Arithmetic F]

/-! ### The books -/

/-- An account as a client knows it: what is on it, and who has the session. -/
@[ext] structure Deposit (F : Type) where
  balance : F
  holder : Option ℕ
  deriving DecidableEq

/-- **The books**: the accounts by name, and how many there are. -/
@[ext] structure Books (F : Type) where
  accounts : CString → Option (Deposit F)
  opened : ℕ

namespace Books

variable (b : Books F) (name : CString)

/-- The books before any account is opened. -/
def empty : Books F := ⟨fun _ => none, 0⟩

/-- Enter what is now known of an account. -/
def put (x : Deposit F) : Books F := { b with accounts := Function.update b.accounts name (some x) }

/-- Open an account. -/
def add : Books F := { b.put name ⟨Arithmetic.zero, none⟩ with opened := b.opened + 1 }

/-- What is on an account. -/
def balance : F := (b.accounts name).elim Arithmetic.zero Deposit.balance

/-- Change what is on an account. -/
def setBalance (balance : F) : Books F :=
  { b with accounts := Function.update b.accounts name ((b.accounts name).map fun x =>
    { x with balance := balance }) }

/-- End the session on an account. -/
def release : Books F :=
  { b with accounts := Function.update b.accounts name ((b.accounts name).map fun x =>
    { x with holder := none }) }

variable {b name}

theorem setBalance_of_eq {x : Deposit F} (h : b.accounts name = some x) (balance : F) :
    b.setBalance name balance = b.put name { x with balance := balance } := by
  rw [setBalance, h]
  rfl

theorem release_of_eq {x : Deposit F} (h : b.accounts name = some x) :
    b.release name = b.put name { x with holder := none } := by
  rw [release, h]
  rfl

end Books

/-! ### Requests -/

/-- An answer: the last one to a request, or the word to wait. -/
inductive Answer
  | final (response : Response)
  | wait (response : Response)
  deriving DecidableEq, Repr

/-- What a request gives: the books, the session of the client, and the answer. -/
abbrev Served (F : Type) := Books F × Option CString × Answer

/-- A request that changes nothing. -/
def Books.tell (b : Books F) (session : Option CString) (code : ResponseCode) (message : CString) :
    Served F := (b, session, .final (formResponse code message))

/-- The answer to an OPEN that succeeds. -/
def openedAnswer (name : CString) : Response :=
  formResponse .success ("Account ".toList ++ name ++ " opened".toList)

/-- The answer to a START that succeeds. -/
def inSessionAnswer (name : CString) : Response :=
  formResponse .success ("Account ".toList ++ name ++ " is in session.".toList)

/-- The word to wait. -/
def waitAnswer : Response := formResponse .success "Waiting to start customer session.".toList

/-- The answer to a BALANCE. -/
def balanceAnswer (name : CString) (balance : F) : Response :=
  formResponse .success ("Account: ".toList ++ name ++ ".\nYour balance is ".toList ++
    Arithmetic.text balance ++ ".".toList)

/-- The word that the time is over. -/
def timeOutAnswer : Response := formResponse .connectionTimeOut "Connection time out.".toList

/-- OPEN. -/
def Books.open_ (b : Books F) (name : CString) : Served F :=
  if b.opened = maxAccount then b.tell none .cannotOpen "Database is full.".toList
  else match b.accounts name with
    | some _ => b.tell none .cannotOpen "Account's already created.".toList
    | none => (b.add name, none, .final (openedAnswer name))

/-- START, for the client `p`. -/
def Books.start (p : ℕ) (b : Books F) (name : CString) : Served F :=
  match b.accounts name with
  | none => b.tell none .cannotStart "Account is not found.".toList
  | some x =>
    if x.holder = none then
      (b.put name { x with holder := some p }, some name, .final (inSessionAnswer name))
    else (b, none, .wait waitAnswer)

/-- DEBIT on an account. -/
def Books.debit (b : Books F) (name amount : CString) : Served F :=
  if Arithmetic.negative (Arithmetic.sub (b.balance name) (Arithmetic.amount amount)) then
    b.tell (some name) .balanceReachZero
      ("Balance reached 0. Your balance is: $".toList ++ Arithmetic.text (b.balance name))
  else
    (b.setBalance name (Arithmetic.sub (b.balance name) (Arithmetic.amount amount)), some name,
      .final (formResponse .success ("Successfully debit $".toList ++ amount ++ ".".toList)))

/-- CREDIT on an account. -/
def Books.credit (b : Books F) (name amount : CString) : Served F :=
  (b.setBalance name (Arithmetic.add (b.balance name) (Arithmetic.amount amount)), some name,
    .final (formResponse .success ("Successfully credit $".toList ++ amount ++ ".".toList)))

/-- **A request is carried out** for the client `p`, without a session or in one. -/
def Books.serve (p : ℕ) (b : Books F) (session : Option CString) (r : Request) : Served F :=
  match session with
  | none => match r.code with
    | .open_ => b.open_ r.message
    | .start => b.start p r.message
    | .exit => b.tell none .accountExit "Exit acknowledged.".toList
    | _ => b.tell none .clientNotInSession
        "Please start an account before doing the transaction.".toList
  | some name => match r.code with
    | .open_ => b.tell session .cannotOpen "Please finish this account session first.".toList
    | .start => b.tell session .cannotStart "Please finish this account session first.".toList
    | .debit => b.debit name r.message
    | .credit => b.credit name r.message
    | .balance => (b, session, .final (balanceAnswer name (b.balance name)))
    | .finish => (b.release name).tell none .success "Account session closed.".toList
    | .exit => (b.release name).tell none .accountExit
        "Exit acknowledged and account session closed.".toList
    | .other _ => b.tell session .success "Not a valid request.".toList

/-! ### Clients -/

/-- **How far the talk with a client is.** -/
inductive Talk
  | idle
  | asked (request : Request)
  | told (request : Request) (answer : Answer)
  /-- It hung up, or its time is over; a session is still to be ended. -/
  | leaving (timedOut : Bool)
  /-- It is still to be told that its time is over. -/
  | expired
  | gone
  deriving DecidableEq, Repr

/-- What the bank knows of a client: the account of its session, and the talk. -/
@[ext] structure Teller where
  session : Option CString
  talk : Talk
  deriving DecidableEq

/-- What can happen next with a client. -/
inductive Act
  | receive (request : Request)
  | hangUp
  | expire
  | fail
  | carryOut
  | answer
  /-- The word to wait, or the one that the time is over, does not get out. -/
  | lose
  deriving DecidableEq, Repr

/-- **A step with the client `p`**, where there is one. -/
def deal (p : ℕ) (b : Books F) (t : Teller) (act : Act) : Option (Books F × Teller × Output) :=
  match t.talk, act with
  | .idle, .receive r => some (b, ⟨t.session, .asked r⟩, .silent)
  | .idle, .hangUp => some (b, ⟨t.session, .leaving false⟩, .silent)
  | .idle, .expire => some (b, ⟨t.session, .leaving true⟩, .silent)
  | .idle, .fail => some (b, ⟨t.session, .gone⟩, .silent)
  | .asked r, .carryOut =>
    let (b', session', answer) := b.serve p t.session r
    some (b', ⟨session', .told r answer⟩, .silent)
  | .leaving timedOut, .carryOut =>
    some (t.session.elim b b.release, ⟨none, if timedOut then .expired else .gone⟩, .silent)
  | .told r (.wait response), .answer => some (b, ⟨t.session, .asked r⟩, .wrote response)
  | .told r (.wait _), .lose => some (b, ⟨t.session, .asked r⟩, .silent)
  | .told r (.final response), .answer =>
    some (b, ⟨t.session, if r.code = .exit then .gone else .idle⟩, .wrote response)
  | .expired, .answer => some (b, ⟨t.session, .gone⟩, .wrote timeOutAnswer)
  | .expired, .lose => some (b, ⟨t.session, .gone⟩, .silent)
  | _, _ => none

/-- **The bank**: its clients, and one request carried out at a time. -/
def bank : Program ℕ (Books F) Teller Act Output where
  init := ⟨none, .idle⟩
  enabled p b t act := (deal p b t act).isSome
  step := deal

end Cs214.MultithreadedBanking

import Cs214.Library.Refinement
import Cs214.MultithreadedBanking.Bank
import Cs214.MultithreadedBanking.Accounts

/-!
# The server is the bank

However the `client()` processes interleave, the clients see what they could see of `bank`, where
every request is carried out at once. `Shows` relates the shared memory to the books, and `teller`
reads off a process, point by point, what the bank knows of its client: a request is carried out
for the books at the store that counts the new account, at the trylock that takes a session, at
the store of a balance, at the unlock that ends a session. A START that finds no account is the
exception: it is answered for the state in which the number of accounts was loaded, before the
search has begun.

Every step of a process is one of the bank with its client, or none (`client_matches`), and so runs
of the server are runs of the bank (`bank_of_run`).
-/

namespace Cs214.MultithreadedBanking

open Tokenizer (CString nul)

set_option linter.unusedSectionVars false

variable {F : Type} [Arithmetic F] {p q a : ℕ} {sh sh' : ServerSession F} {c c' : Client F}
  {i : Input} {out : Output} {sendable : Request → Prop} {tr : List (Step F)}
  {s : Configuration ℕ (ServerSession F) (Client F)} {b b' : Books F} {name text : CString} {n : ℕ}
  {f : Account F → Account F}

/-! ### What is seen -/

/-- What a client sees of its connection, or does to it. -/
inductive Seen
  | received (request : Request)
  | answered (response : Response)
  | closed
  | timedOut
  | failed
  deriving DecidableEq, Repr

/-- What is written. -/
def Output.seen (p : ℕ) : Output → Option (ℕ × Seen)
  | .silent => none
  | .wrote r => some (p, .answered r)

/-- What is seen of a step of the server. -/
def seen (p : ℕ) (i : Input) (out : Output) : Option (ℕ × Seen) :=
  match i with
  | .read byteRead request => some (p, if byteRead = 0 then .closed else .received request)
  | .select activeSockets =>
    if 0 < activeSockets then none
    else some (p, if activeSockets = 0 then .timedOut else .failed)
  | .write _ | .go => out.seen p

/-- What is seen of a step of the bank. -/
def seenOfBank (p : ℕ) (act : Act) (out : Output) : Option (ℕ × Seen) :=
  match act with
  | .receive request => some (p, .received request)
  | .hangUp => some (p, .closed)
  | .expire => some (p, .timedOut)
  | .fail => some (p, .failed)
  | .carryOut | .lose => none
  | .answer => out.seen p

/-- **Where an input is no event of the connection.** -/
theorem seen_of_takes {pc : Pc F} (h : pc.takes i = true) (hselect : pc ≠ .select)
    (hlisten : pc ≠ .listen) : seen p i out = out.seen p := by
  cases i with
  | go | write => rfl
  | select n =>
    cases pc with
    | select => exact absurd rfl hselect
    | clientStart l => cases l <;> cases h
    | _ => cases h
  | read n r =>
    cases pc with
    | listen => exact absurd rfl hlisten
    | clientStart l => cases l <;> cases h
    | _ => cases h

/-! ### The books of the shared memory -/

/-- What the books say of an account. -/
def Account.deposit (x : Account F) : Deposit F := ⟨x.balance, x.accountSessionMutex⟩

/-- **The shared memory shows the books.** -/
structure Shows (sh : ServerSession F) (b : Books F) : Prop where
  opened : b.opened = sh.accountsNo
  present : ∀ a < sh.accountsNo,
    b.accounts (nameText (sh.accounts a).name) = some (sh.accounts a).deposit
  absent : ∀ text, Absent sh sh.accountsNo text → b.accounts text = none

namespace Shows

/-- The books stay if no account changes for them. -/
private theorem congr (h : Shows sh b) (hno : sh'.accountsNo = sh.accountsNo)
    (hname : ∀ a < sh.accountsNo, (sh'.accounts a).name = (sh.accounts a).name)
    (hdeposit : ∀ a < sh.accountsNo, (sh'.accounts a).deposit = (sh.accounts a).deposit) :
    Shows sh' b where
  opened := h.opened.trans hno.symm
  present a ha := by
    rw [hno] at ha
    rw [hname a ha, hdeposit a ha]
    exact h.present a ha
  absent text ht := by
    rw [hno] at ht
    exact h.absent text (ht.congr fun a ha => (hname a ha).symm)

/-- A store into a field that the books do not keep. -/
private theorem keep (h : Shows sh b) (hname : ∀ x, (f x).name = x.name)
    (hdeposit : ∀ x, (f x).deposit = x.deposit) : Shows (sh.modify a f) b :=
  h.congr rfl (fun b _ => name_modify hname b) fun b _ =>
    ServerSession.forall_modify (P := fun b x => x.deposit = (sh.accounts b).deposit)
      (hdeposit _) (fun _ _ => rfl) b

/-- A store behind the open accounts. -/
private theorem slot (h : Shows sh b) (f : Account F → Account F) :
    Shows (sh.modify sh.accountsNo f) b :=
  h.congr rfl (fun _ ha => name_modify_of_lt f ha)
    fun _ ha => by rw [sh.modify_accounts_of_ne _ f ha.ne]

/-- **A store into an open account** is an entry in the books. -/
theorem put (h : Shows sh b) (hD : Distinct sh) (ha : a < sh.accountsNo)
    (hname : ∀ x, (f x).name = x.name) :
    Shows (sh.modify a f) (b.put (nameText (sh.accounts a).name) (f (sh.accounts a)).deposit) where
  opened := h.opened
  present := ServerSession.forall_modify
    (P := fun d x => d < sh.accountsNo → (b.put (nameText (sh.accounts a).name)
      (f (sh.accounts a)).deposit).accounts (nameText x.name) = some x.deposit)
    (fun _ => by rw [hname]; exact Function.update_self ..)
    fun d hne hd => (Function.update_of_ne (fun heq => hne (hD d a hd ha heq)) _ _).trans
      (h.present d hd)
  absent text ht := by
    have ht' : Absent sh sh.accountsNo text :=
      Absent.congr ht fun d _ => (name_modify hname d).symm
    exact (Function.update_of_ne (ht' a ha).symm _ _).trans (h.absent text ht')

/-- **The count of a new account** opens it in the books. -/
theorem add (h : Shows sh b) (hblank : (sh.accounts sh.accountsNo).Blank)
    (hname : nameText (sh.accounts sh.accountsNo).name = text)
    (ht : Absent sh sh.accountsNo text) :
    Shows { sh with accountsNo := sh.accountsNo + 1 } (b.add text) where
  opened := congrArg (· + 1) h.opened
  present a ha := by
    rcases Nat.lt_succ_iff_lt_or_eq.mp ha with ha | rfl
    · exact (Function.update_of_ne (ht a ha) _ _).trans (h.present a ha)
    · dsimp only
      rw [hname, Account.deposit, hblank.balance, hblank.mutex]
      exact Function.update_self ..
  absent t ht' := by
    have hne : t ≠ text := by
      rintro rfl
      exact ht' _ (Nat.lt_succ_self _) hname
    exact (Function.update_of_ne hne _ _).trans
      (h.absent t fun a ha => ht' a (Nat.lt_succ_of_lt ha))

end Shows

/-! ### What the bank knows of a client -/

instance (sh : ServerSession F) (n : ℕ) (text : CString) : Decidable (Absent sh n text) :=
  inferInstanceAs (Decidable (∀ a < n, nameText (sh.accounts a).name ≠ text))

/-- The name of the account a process points to. -/
def Client.accountName (sh : ServerSession F) (c : Client F) : Option CString :=
  c.clientAccount.map fun a => nameText (sh.accounts a).name

/-- The answer to a START that finds no account. -/
def notFoundAnswer : Response := formResponse .cannotStart "Account is not found.".toList

/-- OPEN is carried out when the account is counted or the refusal is formed. -/
def OpenPc.talk (c : Client F) : OpenPc → Talk
  | .unlock false => .told c.request (.final c.response)
  | .unlock true => .told c.request (.final (openedAnswer c.request.message))
  | _ => .asked c.request

/-- Behind the load of the number of accounts a START for which there is none is carried out. -/
def snapshotTalk (sh : ServerSession F) (c : Client F) (n : ℕ) : Talk :=
  if Absent sh n c.request.message then .told c.request (.final notFoundAnswer)
  else .asked c.request

/-- START is carried out at that load or at the trylock. -/
def StartPc.talk (sh : ServerSession F) (c : Client F) : StartPc → Talk
  | .unlock n | .search n _ _ => snapshotTalk sh c n
  | .wait _ => .told c.request (.wait c.response)
  | .enter => .told c.request (.final (inSessionAnswer c.request.message))
  | .lock | .count | .trylock _ => .asked c.request

/-- **How far the talk with a client is** at a point of the code. -/
def Pc.talk (sh : ServerSession F) (c : Client F) : Pc F → Talk
  | .select | .listen => .idle
  | .check => .asked c.request
  | .clientOpen l => l.talk c
  | .clientStart l => l.talk sh c
  | .clientDebit _ | .clientCredit _ | .balance .load => .asked c.request
  | .balance (.name loaded) =>
    .told c.request (.final (balanceAnswer ((c.accountName sh).getD []) loaded))
  | .setNotInSession .disconnect _ => .leaving false
  | .setNotInSession .timeOut _ => .leaving true
  | .setNotInSession .finish _ | .setNotInSession .exit _ => .asked c.request
  | .reply => .told c.request (.final c.response)
  | .timeOut => .expired
  | .exited => .gone

/-- **What the bank knows of the client** of a process. -/
def teller (sh : ServerSession F) (c : Client F) : Teller := ⟨c.accountName sh, c.pc.talk sh c⟩

/-- The locals of a process and what the bank knows of its client. -/
def Mirrors (_p : ℕ) (sh : ServerSession F) (c : Client F) (t : Teller) : Prop := t = teller sh c

/-- **A step to be matched**, with what is seen of it. -/
abbrev Matched (p : ℕ) (out : Option (ℕ × Seen)) (sh : ServerSession F) (c : Client F) (b : Books F)
    (t : Teller) : Prop := Matches bank Shows Mirrors seenOfBank p out.toList sh c b t

/-- The bank takes one step. -/
private theorem Matched.deal (act : Act) (out : Output) (hR : Shows sh' b')
    (hs : deal p b (teller sh c) act = some (b', teller sh' c', out)) :
    Matched p (seenOfBank p act out) sh' c' b (teller sh c) :=
  Matches.single (Q := bank) (i := act) (by simp [bank, hs]) hs rfl hR rfl

/-- **The request is carried out.** -/
theorem Matched.serve {answer : Answer} {session : Option CString} (hR : Shows sh' b')
    (htalk : c.pc.talk sh c = .asked c.request)
    (hs : b.serve p (c.accountName sh) c.request = (b', session, answer))
    (hsession : c'.accountName sh' = session)
    (htalk' : c'.pc.talk sh' c' = .told c.request answer) :
    Matched p none sh' c' b (teller sh c) := by
  refine Matched.deal .carryOut .silent hR ?_
  simp only [MultithreadedBanking.deal, teller, htalk, hs, hsession, htalk']

/-- A store into the lock of new accounts. -/
private theorem Shows.mutex (hR : Shows sh b) (m : Option ℕ) :
    Shows { sh with newAccountLockMutex := m } b := ⟨hR.opened, hR.present, hR.absent⟩

/-! ### OPEN -/

/-- The account of the session in the books. -/
private theorem Shows.own (hR : Shows sh b) (hA : Assertion p sh c)
    (ha : c.clientAccount = some a) :
    b.accounts (nameText (sh.accounts a).name) = some (sh.accounts a).deposit :=
  hR.present a (hA.opened a ha)

/-- A store of the balance. -/
private theorem Shows.setBalance (hR : Shows sh b) (hD : Distinct sh) (ha : a < sh.accountsNo)
    (balance : F) : Shows (sh.modify a fun x => { x with balance := balance })
      (b.setBalance (nameText (sh.accounts a).name) balance) := by
  rw [Books.setBalance_of_eq (hR.present a ha)]
  exact hR.put hD ha fun _ => rfl

/-- The unlock of a session. -/
private theorem Shows.release (hR : Shows sh b) (hD : Distinct sh) (ha : a < sh.accountsNo) :
    Shows (sh.modify a fun x => { x with accountSessionMutex := none })
      (b.release (nameText (sh.accounts a).name)) := by
  rw [Books.release_of_eq (hR.present a ha)]
  exact hR.put hD ha fun _ => rfl

theorem run_visit_named :
    Run (program Request.HasName).machine (start Request.HasName) visit.1 visit.2 :=
  run_of_sendable hasName_of_mem_visitRequests (Machine.run_get visit_isSome)

end Cs214.MultithreadedBanking

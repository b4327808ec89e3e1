import Cs214.MultithreadedBanking.PrintAccount
import Cs214.MultithreadedBanking.Accounts

/-!
# What a report says

While the printer holds the lock of new accounts no account is opened and no name changes, so a
report has one line for each account, with the whole name although the name is read character by
character. Balances and sessions go on changing, as the printer takes no lock of an account: each
is what the account had when its column was printed, and the report need not fit to any one
moment. An account whose session starts between the two loads of `in_session` is found in neither
state, and its last column stays empty (`report_of_run`).
-/

namespace Cs214.MultithreadedBanking

open Tokenizer (CString nul)

set_option linter.unusedSectionVars false

variable {F : Type} [Arithmetic F] {p parent a temp : ℕ} {sh sh' : ServerSession F} {i : Input}
  {sendable : Request → Prop} {tr tr' : List (WatchedStep F)} {s : Watched F} {e : WatchedStep F}
  {stop : Bool} {text read : CString}

/-! ### The names that are read -/

/-- **Every open account has a name** with a NUL behind it in its field. -/
def Titled (sh : ServerSession F) : Prop :=
  ∀ a < sh.accountsNo, IsName (nameText (sh.accounts a).name)

/-- A client that holds the lock is in one of the two calls. -/
private theorem Pc.cases_of_locked {pc : Pc F} (h : pc.locked = true) :
    (∃ l, pc = .clientOpen l) ∨ ∃ l, pc = .clientStart l := by
  cases pc with
  | clientOpen l => exact .inl ⟨l, rfl⟩
  | clientStart l => exact .inr ⟨l, rfl⟩
  | _ => cases h

/-- The number of accounts grows by one, under the lock. -/
private theorem Change.grown (hc : Change p sh sh') (h : sh.accountsNo < sh'.accountsNo) :
    sh.newAccountLockMutex = some p ∧ sh'.accountsNo = sh.accountsNo + 1 := by
  cases hc with
  | count hlock => exact ⟨hlock, rfl⟩
  | none | lock | unlock | take | own | release | init => exact absurd h (lt_irrefl _)

/-- **An account that a step opens** has the name of the request. -/
theorem name_of_grown {c c' : Client F} {out : Output} (hN : Named p sh c) (hc : Change p sh sh')
    (hgrows : sh.accountsNo < sh'.accountsNo) (hs : client p sh c i = some (sh', c', out)) :
    IsName (nameText (sh'.accounts sh.accountsNo).name) := by
  have hholds := hN.assertion.holds
  have hknows := hN.knows
  unfold client at hs
  rcases Pc.cases_of_locked (hN.assertion.lock.mp (hc.grown hgrows).1) with ⟨l, hpc⟩ | ⟨l, hpc⟩
  · rw [hpc] at hholds hknows hs
    cases clientOpen_cases hs with
    | storeNo n =>
      obtain ⟨hcode, -, rfl, -⟩ := hholds
      have hname : nameText (sh.accounts sh.accountsNo).name = c.request.message := hknows.2
      rw [hname]
      exact hN.request (.inl hcode)
    | _ => exact absurd hgrows (lt_irrefl _)
  · rw [hpc] at hs
    cases clientStart_cases hs with
    | _ => exact absurd hgrows (lt_irrefl _)

/-- The names of the open accounts in every reachable state. -/
private theorem titled_of_run (hsendable : ∀ r, sendable r → r.HasName) {tr : List (Step F)}
    {s : Configuration ℕ (ServerSession F) (Client F)}
    (hr : Run (program sendable).machine (start sendable) tr s) : Titled s.shared := by
  induction hr with
  | nil => exact fun a ha => absurd ha (Nat.not_lt_zero a)
  | @snoc tr e hr he ih =>
    obtain ⟨⟨hI, -⟩, hN⟩ := named_of_run hsendable hr
    have hs := he.localStep
    have hc := (client_spec hI (hN _).assertion he.legal.free hs).1
    intro a ha
    by_cases hold : a < e.pre.shared.accountsNo
    · rw [hc.name_of_lt hold]
      exact ih a hold
    · -- the account is new
      have hgrown := (hc.grown (by omega)).2
      obtain rfl : a = e.pre.shared.accountsNo := by omega
      exact name_of_grown (hN _) hc ha hs

/-- **One character of a name** is read: the name goes on with it, or has been read. -/
theorem read_character {name : ℕ → Char} (ht : IsName (nameText name))
    (hread : read <+: nameText name) : read.length < nameMaxLength ∧
      (name read.length = nul → read = nameText name) ∧
      (name read.length ≠ nul → read ++ [name read.length] <+: nameText name) := by
  have hfield := (nameText_eq_iff ht).mp rfl
  have hle := hread.length_le
  refine ⟨Nat.lt_of_le_of_lt hle ht.length, fun hnul => ?_, fun hchar => ?_⟩
  · refine hread.eq_of_length (Nat.le_antisymm hle (not_lt.mp fun hlt => ?_))
    exact charAt_ne_nul ht.nul hlt (hfield _ hle ▸ hnul)
  · have hlt : read.length < (nameText name).length := by
      refine lt_of_le_of_ne hle fun heq => hchar ?_
      rw [hfield _ hle, heq, charAt_of_le le_rfl]
    obtain ⟨rest, hrest⟩ := hread
    cases rest with
    | nil =>
      rw [← hrest, List.append_nil] at hlt
      exact absurd hlt (lt_irrefl _)
    | cons d rest =>
      have hd : name read.length = d := by
        rw [hfield _ hle, ← hrest, charAt, List.getD_eq_getElem?_getD,
          List.getElem?_append_right le_rfl, Nat.sub_self]
        rfl
      rw [hd, ← hrest]
      exact ⟨rest, by simp⟩

/-! ### Lines and reports -/

/-- The line of an account: the session is none if the account was found in neither state. -/
structure Row (F : Type) where
  name : CString
  balance : F
  session : Option InSession

/-- The line of the account at `temp`. -/
def Row.line (temp : ℕ) (row : Row F) : CString :=
  numberColumn temp ++ nameColumn row.name ++ balanceColumn row.balance ++
    sessionColumn row.session

/-- The text of some lines. -/
def rowsText (rows : List (Row F)) : CString := (rows.mapIdx Row.line).flatten

/-- **The text of a report.** -/
def reportText (rows : List (Row F)) : CString :=
  if rows = [] then noAccount else heading ++ rowsText rows

/-- A row is added at the end of the text. -/
private theorem rowsText_append (rows : List (Row F)) (row : Row F) :
    rowsText (rows ++ [row]) = rowsText rows ++ row.line rows.length := by
  rw [rowsText, List.mapIdx_concat, List.flatten_append, List.flatten_singleton, rowsText]

/-- **The accounts stand still** as far as their number and their names go. -/
structure Still (sh sh' : ServerSession F) : Prop where
  count : sh'.accountsNo = sh.accountsNo
  name : ∀ a, (sh'.accounts a).name = (sh.accounts a).name

/-- What is still is so for a second time. -/
private theorem Still.trans {sh'' : ServerSession F} (h : Still sh sh') (h' : Still sh' sh'') :
    Still sh sh'' :=
  ⟨h'.count.trans h.count, fun a => (h'.name a).trans (h.name a)⟩

/-- What the last column says was found in these steps. -/
inductive SessionSeen (tr : List (WatchedStep F)) (a : ℕ) : Option InSession → Prop
  | seen {e : WatchedStep F} {x : InSession} (he : e ∈ tr)
      (h : (e.pre.server.shared.accounts a).inSession = x) : SessionSeen tr a (some x)
  /-- The session starts between two loads. -/
  | started {e₁ e₂ : WatchedStep F} {tr₁ tr₂ tr₃ : List (WatchedStep F)}
      (htr : tr = tr₁ ++ e₁ :: tr₂ ++ e₂ :: tr₃)
      (h₁ : (e₁.pre.server.shared.accounts a).inSession = .notInSession)
      (h₂ : (e₂.pre.server.shared.accounts a).inSession = .inSession) : SessionSeen tr a none

/-- **What a line says of the account at `a`**: its name, and a balance and a state of its session
that it had in these steps. -/
structure Row.Seen (sh : ServerSession F) (tr : List (WatchedStep F)) (a : ℕ) (row : Row F) :
    Prop where
  name : row.name = nameText (sh.accounts a).name
  balance : ∃ e ∈ tr, (e.pre.server.shared.accounts a).balance = row.balance
  session : SessionSeen tr a row.session

/-- What was seen in a part of the steps was seen in them. -/
private theorem SessionSeen.mono {session : Option InSession} (h : SessionSeen tr a session)
    (tr' : List (WatchedStep F)) : SessionSeen (tr ++ tr') a session := by
  cases h with
  | seen he h => exact .seen (List.mem_append_left _ he) h
  | @started e₁ e₂ tr₁ tr₂ tr₃ htr h₁ h₂ =>
    have htr' : tr ++ tr' = tr₁ ++ e₁ :: tr₂ ++ e₂ :: (tr₃ ++ tr') := by simp [htr]
    exact .started htr' h₁ h₂

private theorem Row.Seen.mono {row : Row F} (h : row.Seen sh tr a) (tr' : List (WatchedStep F)) :
    row.Seen sh (tr ++ tr') a := by
  obtain ⟨e, he, hbalance⟩ := h.balance
  exact ⟨h.name, ⟨e, List.mem_append_left _ he, hbalance⟩, h.session.mono tr'⟩

/-- **The lines of the first accounts.** -/
def Lines (sh : ServerSession F) (tr : List (WatchedStep F)) (rows : List (Row F)) : Prop :=
  ∀ (a : ℕ) (row : Row F), rows[a]? = some row → row.Seen sh tr a

private theorem Lines.mono {rows : List (Row F)} (h : Lines sh tr rows)
    (tr' : List (WatchedStep F)) :
    Lines sh (tr ++ tr') rows := fun a row hrow => (h a row hrow).mono tr'

/-- The lines with one more. -/
private theorem Lines.append {rows : List (Row F)} {row : Row F} (h : Lines sh tr rows)
    (hrow : row.Seen sh tr rows.length) : Lines sh tr (rows ++ [row]) := by
  intro a row' ha
  rcases Nat.lt_trichotomy a rows.length with hlt | rfl | hlt
  · rw [List.getElem?_append_left hlt] at ha
    exact h a row' ha
  · rw [List.getElem?_concat_length] at ha
    obtain rfl := Option.some.inj ha
    exact hrow
  · have hlength : (rows ++ [row]).length ≤ a := by
      rw [List.length_append, List.length_singleton]
      exact hlt
    rw [List.getElem?_eq_none hlength] at ha
    cases ha

/-- The names of the lines are those of the accounts. -/
private theorem Lines.names {rows : List (Row F)} (h : Lines sh tr rows) :
    rows.map Row.name = (List.range rows.length).map fun a => nameText (sh.accounts a).name := by
  refine List.ext_getElem (by simp) fun a hrow _ => ?_
  rw [List.length_map] at hrow
  rw [List.getElem_map, List.getElem_map, List.getElem_range]
  exact (h a rows[a] (List.getElem?_eq_getElem hrow)).name

/-! ### The printer between its lock and its unlock -/

/-- The heading and the lines of the first accounts. -/
def Printed (sh : ServerSession F) (tr : List (WatchedStep F)) (temp : ℕ) (text : CString) : Prop :=
  ∃ rows, rows.length = temp ∧ Lines sh tr rows ∧ text = heading ++ rowsText rows

/-- The line of the account at `temp` up to its balance. -/
def PrintedBalance (sh : ServerSession F) (tr : List (WatchedStep F)) (temp : ℕ) (text : CString) :
    Prop :=
  ∃ body balance, Printed sh tr temp body ∧
    (∃ e ∈ tr, (e.pre.server.shared.accounts temp).balance = balance) ∧
    text = body ++ (numberColumn temp ++ nameColumn (nameText (sh.accounts temp).name) ++
      balanceColumn balance)

/-- **What the printer has printed** at a point of its code, if it has found the accounts `sh`
when it took the lock, and `tr` are the steps since then. -/
def PrintPc.Holds (sh : ServerSession F) (tr : List (WatchedStep F)) (text : CString) :
    PrintPc → Prop
  | .sleep | .lock | .stopped => False
  | .count => text = []
  | .test temp => temp ≤ sh.accountsNo ∧ 0 < sh.accountsNo ∧ Printed sh tr temp text
  | .name temp read => temp < sh.accountsNo ∧ read <+: nameText (sh.accounts temp).name ∧
      ∃ body, Printed sh tr temp body ∧ text = body ++ numberColumn temp
  | .balance temp => temp < sh.accountsNo ∧ ∃ body, Printed sh tr temp body ∧
      text = body ++ (numberColumn temp ++ nameColumn (nameText (sh.accounts temp).name))
  | .inSession temp => temp < sh.accountsNo ∧ PrintedBalance sh tr temp text
  | .notInSession temp => temp < sh.accountsNo ∧ PrintedBalance sh tr temp text ∧
      ∃ e ∈ tr, (e.pre.server.shared.accounts temp).inSession = .notInSession
  | .unlock => ∃ rows, rows.length = sh.accountsNo ∧ Lines sh tr rows ∧ text = reportText rows

private theorem Printed.mono (h : Printed sh tr temp text) (tr' : List (WatchedStep F)) :
    Printed sh (tr ++ tr') temp text := by
  obtain ⟨rows, hlength, hlines, htext⟩ := h
  exact ⟨rows, hlength, hlines.mono tr', htext⟩

private theorem PrintedBalance.mono (h : PrintedBalance sh tr temp text)
    (tr' : List (WatchedStep F)) :
    PrintedBalance sh (tr ++ tr') temp text := by
  obtain ⟨body, balance, hbody, ⟨e, he, hbalance⟩, htext⟩ := h
  exact ⟨body, balance, hbody.mono tr', ⟨e, List.mem_append_left _ he, hbalance⟩, htext⟩

/-- A step of somebody else. -/
private theorem PrintPc.Holds.mono {pc : PrintPc} (h : pc.Holds sh tr text)
    (tr' : List (WatchedStep F)) :
    pc.Holds sh (tr ++ tr') text := by
  cases pc with
  | sleep | lock | stopped => exact h.elim
  | count => exact h
  | test temp => exact ⟨h.1, h.2.1, h.2.2.mono tr'⟩
  | name temp read =>
    obtain ⟨hlt, hread, body, hbody, htext⟩ := h
    exact ⟨hlt, hread, body, hbody.mono tr', htext⟩
  | balance temp =>
    obtain ⟨hlt, body, hbody, htext⟩ := h
    exact ⟨hlt, body, hbody.mono tr', htext⟩
  | inSession temp => exact ⟨h.1, h.2.mono tr'⟩
  | notInSession temp =>
    obtain ⟨hlt, hprinted, e, he, hnot⟩ := h
    exact ⟨hlt, hprinted.mono tr', e, List.mem_append_left _ he, hnot⟩
  | unlock =>
    obtain ⟨rows, hlength, hlines, htext⟩ := h
    exact ⟨rows, hlength, hlines.mono tr', htext⟩

/-- **The end of a line**: the last column says what has been seen of the session. -/
theorem PrintedBalance.line {session : Option InSession} (h : PrintedBalance sh tr temp text)
    (hsession : SessionSeen tr temp session) :
    Printed sh tr (temp + 1) (text ++ sessionColumn session) := by
  obtain ⟨_, balance, ⟨rows, rfl, hlines, rfl⟩, hbalance, rfl⟩ := h
  refine ⟨rows ++ [⟨nameText (sh.accounts rows.length).name, balance, session⟩], by simp,
    hlines.append ⟨rfl, hbalance, hsession⟩, ?_⟩
  simp only [rowsText_append, Row.line, List.append_assoc]

/-- **A step of the printer** goes on with its report, or shows it. -/
theorem PrintStep.holds {pc : PrintPc} {pr : Printer}
    {report : Option CString} (hstep : PrintStep parent e.pre.server.shared text pc sh' pr report)
    (h : pc.Holds sh tr text) (hstill : Still sh e.pre.server.shared) (htitled : Titled sh) :
    (report = none ∧ pr.pc.Holds sh (tr ++ [e]) pr.text) ∨
      report = some text ∧ ∃ rows, rows.length = sh.accountsNo ∧ Lines sh tr rows ∧
        text = reportText rows := by
  have hcount := hstill.count
  have hmem : e ∈ tr ++ [e] := by simp
  have hmono : ∀ {pc : PrintPc} {text : CString}, pc.Holds sh tr text →
      pc.Holds sh (tr ++ [e]) text := fun h => h.mono [e]
  cases hstep with
  | sleep | stop | lock => exact h.elim
  | empty hzero =>
    refine .inl ⟨rfl, [], ?_, nofun, ?_⟩
    · rw [← hcount, hzero]
      rfl
    · rw [show text = [] from h]
      rfl
  | heading hzero =>
    refine .inl ⟨rfl, Nat.zero_le _, by omega, [], rfl, nofun, ?_⟩
    rw [show text = [] from h]
    simp [rowsText]
  | number hlt =>
    obtain ⟨-, -, hprinted⟩ := hmono h
    exact .inl ⟨rfl, hcount ▸ hlt, List.nil_prefix, text, hprinted, rfl⟩
  | @last temp hlast =>
    obtain ⟨hle, hpos, rows, hlength, hlines, htext⟩ := hmono h
    have hrows : rows ≠ [] := by
      rintro rfl
      rw [List.length_nil] at hlength
      omega
    refine .inl ⟨rfl, rows, by omega, hlines, ?_⟩
    rw [htext, reportText, if_neg hrows]
  | @name temp read hnul =>
    obtain ⟨hlt, hread, body, hprinted, htext⟩ := hmono h
    rw [hstill.name temp] at hnul
    have hwhole := (read_character (htitled temp hlt) hread).2.1 hnul
    exact .inl ⟨rfl, hlt, body, hprinted, by rw [htext, hwhole, List.append_assoc]⟩
  | @character temp read hchar =>
    obtain ⟨hlt, hread, body, hprinted, htext⟩ := hmono h
    rw [hstill.name temp] at hchar ⊢
    exact .inl ⟨rfl, hlt, (read_character (htitled temp hlt) hread).2.2 hchar, body, hprinted,
      htext⟩
  | balance temp =>
    obtain ⟨hlt, body, hprinted, htext⟩ := hmono h
    refine .inl ⟨rfl, hlt, body, _, hprinted, ⟨e, hmem, rfl⟩, ?_⟩
    rw [htext]
    simp only [List.append_assoc]
  | inSession hin =>
    obtain ⟨hlt, hprinted⟩ := hmono h
    exact .inl ⟨rfl, hlt, by omega, hprinted.line (.seen hmem hin)⟩
  | @again temp hin =>
    obtain ⟨hlt, hprinted⟩ := hmono h
    have hnot : (e.pre.server.shared.accounts temp).inSession = .notInSession := by
      cases hsession : (e.pre.server.shared.accounts temp).inSession with
      | notInSession => rfl
      | inSession => exact absurd hsession hin
    exact .inl ⟨rfl, hlt, hprinted, e, hmem, hnot⟩
  | notInSession hnot =>
    obtain ⟨hlt, hprinted, -⟩ := hmono h
    exact .inl ⟨rfl, hlt, by omega, hprinted.line (.seen hmem hnot)⟩
  | @neither temp hnot =>
    obtain ⟨hlt, hprinted, -⟩ := hmono h
    obtain ⟨-, -, e₁, he₁, hbefore⟩ := h
    obtain ⟨tr₁, tr₂, rfl⟩ := List.append_of_mem he₁
    have hin : (e.pre.server.shared.accounts temp).inSession = .inSession := by
      cases hsession : (e.pre.server.shared.accounts temp).inSession with
      | notInSession => exact absurd hsession hnot
      | inSession => rfl
    exact .inl ⟨rfl, hlt, by omega, hprinted.line (.started rfl hbefore hin)⟩
  | unlock =>
    obtain ⟨rows, hlength, hlines, htext⟩ := h
    exact .inr ⟨rfl, rows, hlength, hlines, htext⟩

/-- While the printer holds the lock it writes nothing to the shared memory. -/
private theorem PrintStep.shared {pc : PrintPc} {pr : Printer} {report : Option CString}
    (hstep : PrintStep parent sh text pc sh' pr report) (hpc : pc.locked = true)
    (hpr : pr.pc.locked = true) : sh' = sh := by
  cases hstep with
  | lock => cases hpc
  | unlock => cases hpr
  | _ => rfl

/-- The lock is taken. -/
private theorem PrintStep.of_locked {pc : PrintPc} {pr : Printer} {report : Option CString}
    (hstep : PrintStep parent sh text pc sh' pr report) (hpc : pc.locked = false)
    (hpr : pr.pc.locked = true) :
    pc = .lock ∧ pr = ⟨.count, []⟩ ∧ sh' = sh.setLock (some parent) := by
  cases hstep with
  | lock => exact ⟨rfl, rfl, rfl⟩
  | sleep | stop => cases hpr
  | _ => cases hpc

/-- A report is shown when the lock is given back. -/
private theorem PrintStep.of_report {pc : PrintPc} {pr : Printer} {report : CString}
    (hstep : PrintStep parent sh text pc sh' pr (some report)) :
    pc.locked = true ∧ pr.pc.locked = false := by
  cases hstep
  exact ⟨rfl, rfl⟩

/-! ### Every run -/

/-- **Since the printer took the lock** with the step `l`, it has held it, and the accounts have
stood still. -/
structure Since (l : WatchedStep F) (tr : List (WatchedStep F)) : Prop where
  lock : l.pre.printer.pc = .lock
  locked : l.post.printer.pc = .count
  held : ∀ f ∈ tr, f.pre.printer.pc.locked = true
  still : ∀ f ∈ tr, Still l.pre.server.shared f.pre.server.shared

/-- What holds while the printer holds the lock. -/
structure Printing (l : WatchedStep F) (tr : List (WatchedStep F)) (s : Watched F) : Prop where
  since : Since l tr
  still : Still l.pre.server.shared s.server.shared
  holds : s.printer.pc.Holds l.pre.server.shared tr s.printer.text
  room : l.pre.server.shared.accountsNo ≤ maxAccount
  titled : Titled l.pre.server.shared
  distinct : Distinct l.pre.server.shared

/-- One more step while the printer holds the lock. -/
private theorem Since.snoc {l : WatchedStep F} (h : Since l tr)
    (hheld : e.pre.printer.pc.locked = true)
    (hstill : Still l.pre.server.shared e.pre.server.shared) : Since l (tr ++ [e]) where
  lock := h.lock
  locked := h.locked
  held := by simpa [or_imp, forall_and] using ⟨h.held, hheld⟩
  still := by simpa [or_imp, forall_and] using ⟨h.still, hstill⟩

/-- The clients leave the accounts still while the printer holds the lock. -/
private theorem still_of_clientStep
    (hr : Run (watched sendable parent) (watchedStart sendable) tr e.pre)
    (he : e.Occurs (watched sendable parent)) (hop : e.op = .client p i)
    (hlocked : e.pre.printer.pc.locked = true) :
    e.post.printer = e.pre.printer ∧ Still e.pre.server.shared e.post.server.shared := by
  obtain ⟨⟨tr', hrun, -⟩, hheld⟩ := run_of_watched hr
  obtain ⟨hI, hA⟩ := invariant_of_run hrun
  obtain ⟨⟨out, -, hocc⟩, hprinter, -⟩ := unwatched_clientStep hA hheld he hop
  have hc := (client_spec hI (hA p) hocc.legal.free hocc.localStep).1
  have hpre := unwatched_of_locked hlocked
  obtain ⟨hcount, hname⟩ := hc.names_of_lock (by rw [hpre]; exact (Option.some_ne_none p).symm)
  rw [hpre, unwatched_of_locked (hprinter ▸ hlocked)] at hcount hname
  exact ⟨hprinter, hcount, hname⟩

/-- **The printer at work** has taken the lock before. -/
theorem printing_of_run (hsendable : ∀ r, sendable r → r.HasName)
    (hr : Run (watched sendable parent) (watchedStart sendable) tr s)
    (hlocked : s.printer.pc.locked = true) :
    ∃ tr₁ l tr₂, tr = tr₁ ++ l :: tr₂ ∧ Printing l tr₂ s := by
  refine hr.invariant_trace (I := fun tr s => s.printer.pc.locked = true →
    ∃ tr₁ l tr₂, tr = tr₁ ++ l :: tr₂ ∧ Printing l tr₂ s) nofun ?_ hlocked
  rintro tr e hr ih he hpost
  rcases hop : e.op with ⟨p, i⟩ | stop
  · have hprinter := (clientStep_cases he hop).choose_spec.2.1
    have hpre : e.pre.printer.pc.locked = true := hprinter ▸ hpost
    obtain ⟨tr₁, l, tr₂, rfl, h⟩ := ih hpre
    obtain ⟨-, hstill⟩ := still_of_clientStep hr he hop hpre
    refine ⟨tr₁, l, tr₂ ++ [e], by simp, h.since.snoc hpre h.still, h.still.trans hstill, ?_,
      h.room, h.titled, h.distinct⟩
    rw [hprinter]
    exact h.holds.mono [e]
  · obtain ⟨report, -, -, -, hstep⟩ := printStep_cases he hop
    rcases hpre : e.pre.printer.pc.locked with _ | _
    · -- the lock is taken
      obtain ⟨⟨tr', hrun, -⟩, -⟩ := run_of_watched hr
      rw [unwatched_of_not_locked hpre] at hrun
      obtain ⟨⟨hI, hD⟩, -⟩ := named_of_run hsendable hrun
      have htitled := titled_of_run hsendable hrun
      obtain ⟨hpc, hpr, hsh⟩ := hstep.of_locked hpre hpost
      have hsince : Since e [] := ⟨hpc, by rw [hpr], by simp, by simp⟩
      have hstill : Still e.pre.server.shared e.post.server.shared := by
        rw [hsh]
        exact ⟨rfl, fun _ => rfl⟩
      have hholds : e.post.printer.pc.Holds e.pre.server.shared [] e.post.printer.text := by
        rw [hpr]
        rfl
      exact ⟨tr, e, [], rfl, hsince, hstill, hholds, hI.room, htitled, hD⟩
    · obtain ⟨tr₁, l, tr₂, rfl, h⟩ := ih hpre
      have hshared := hstep.shared hpre hpost
      refine ⟨tr₁, l, tr₂ ++ [e], by simp, h.since.snoc hpre h.still, hshared ▸ h.still, ?_,
        h.room, h.titled, h.distinct⟩
      rcases hstep.holds h.holds h.still h.titled with ⟨-, hholds⟩ | ⟨rfl, -⟩
      · exact hholds
      · exact absurd hpost (by simp [hstep.of_report.2])

/-- **The printer never faults**: it stays in the array, and in the fields of the names. -/
theorem isSome_printAccount (hsendable : ∀ r, sendable r → r.HasName)
    (hr : Run (watched sendable parent) (watchedStart sendable) tr s)
    (hpc : s.printer.pc ≠ .stopped) (stop : Bool) :
    (printAccount parent stop s.server.shared s.printer).isSome := by
  rcases hlocked : s.printer.pc.locked with _ | _
  · unfold printAccount
    cases h : s.printer.pc with
    | stopped => exact absurd h hpc
    | sleep | lock => rfl
    | _ =>
      rw [h] at hlocked
      cases hlocked
  · obtain ⟨tr₁, l, tr₂, rfl, h⟩ := printing_of_run hsendable hr hlocked
    have hholds := h.holds
    have haccount (temp : ℕ) (hlt : temp < l.pre.server.shared.accountsNo) :
        s.server.shared.account? temp = some (s.server.shared.accounts temp) :=
      if_pos (hlt.trans_le h.room)
    unfold printAccount
    cases hpc : s.printer.pc with
    | sleep | lock | stopped =>
      rw [hpc] at hlocked
      cases hlocked
    | count | test =>
      dsimp only
      split <;> rfl
    | name temp read =>
      rw [hpc] at hholds
      obtain ⟨hlt, hread, -⟩ := hholds
      have hshort := (read_character (h.titled temp hlt) hread).1
      simp only [haccount temp hlt, Option.bind_eq_bind, Option.bind_some,
        if_neg (not_le.mpr hshort)]
      split <;> rfl
    | balance temp | inSession temp =>
      rw [hpc] at hholds
      simp only [haccount temp hholds.1, Option.bind_eq_bind, Option.bind_some]
      first | rfl | (split <;> rfl)
    | notInSession temp =>
      rw [hpc] at hholds
      simp only [haccount temp hholds.1, Option.bind_eq_bind, Option.bind_some]
      split <;> rfl
    | unlock => rfl

/-! ### An account whose session starts while it is printed -/

/-- A client opens an account and is about to start a session. -/
def startingSteps : List (ℕ × Input) :=
  receive 0 ⟨.open_, ['a']⟩ ++ List.replicate 110 (0, .go) ++ [(0, .write 304)] ++
  receive 0 ⟨.start, ['a']⟩ ++ List.replicate 5 (0, .go)

/-- The printer prints the line of the account up to its last column, and finds no session; then
the session starts. -/
def watchSteps : List WatchedOp :=
  startingSteps.map (fun o => .client o.1 o.2) ++ List.replicate 8 (.print false) ++
  [.client 0 .go, .client 0 .go] ++ List.replicate 2 (.print false)

/-- The run of a client with the printer goes through. -/
private theorem watch_isSome : ((watched (F := ℚ) (· ∈ visitRequests) 2).exec
    (watchedStart (· ∈ visitRequests)) watchSteps).isSome := by decide +kernel

/-- The steps as a run. -/
def watch : List (WatchedStep ℚ) × Watched ℚ :=
  ((watched (· ∈ visitRequests) 2).exec (watchedStart (· ∈ visitRequests)) watchSteps).get
    watch_isSome

private theorem run_watch :
    Run (watched (· ∈ visitRequests) 2) (watchedStart (· ∈ visitRequests)) watch.1
    watch.2 := Machine.run_get watch_isSome

private theorem watch_legal : (watched (· ∈ visitRequests) 2).legal watch.2 (.print false) := by
  decide +kernel

/-- And so does the step that shows the report. -/
private theorem isSome_watch :
    ((watched (· ∈ visitRequests) 2).step watch.2 (.print false)).isSome := by
  decide +kernel

/-- The step that shows the report. -/
def watchEnd : WatchedStep ℚ :=
  (watched (· ∈ visitRequests) 2).event watch.2 (.print false) isSome_watch

/-- The report has one line, with no state of the session. -/
private theorem watchEnd_out :
    watchEnd.out = .print (some (reportText [(⟨['a'], 0, none⟩ : Row ℚ)])) := by
  decide +kernel

/-! ### The server and its reports -/

/-- **The server with its printer**: its clients run as they do without it, show what they show
without it, and the printer never faults. -/
theorem watched_serves (hsendable : ∀ r, sendable r → r.HasName)
    (hr : Run (watched sendable parent) (watchedStart sendable) tr s) :
    (∃ tr', Run (program sendable).machine (start sendable) tr' s.unwatched ∧
      tr'.map (fun e => (e.op, e.out)) = clientSteps tr) ∧
    ∀ stop, (watched sendable parent).legal s (.print stop) →
      ((watched sendable parent).step s (.print stop)).isSome := by
  refine ⟨(run_of_watched hr).unwatched, fun stop hlegal => ?_⟩
  obtain ⟨⟨sh, pr, report⟩, hprint⟩ :=
    Option.isSome_iff_exists.mp (isSome_printAccount hsendable hr hlegal.1 stop)
  simp [watched, hprint]

/-- The client goes on while its account is printed. -/
theorem watched_serves_watch : (∃ tr', Run (program (· ∈ visitRequests)).machine
      (start (· ∈ visitRequests)) tr' watch.2.unwatched ∧
      tr'.map (fun e => (e.op, e.out)) = clientSteps watch.1) ∧
    ((watched (· ∈ visitRequests) 2).step watch.2 (.print true)).isSome := by
  obtain ⟨hclients, hprinter⟩ := watched_serves hasName_of_mem_visitRequests run_watch
  exact ⟨hclients, hprinter true watch_legal⟩

/-- **A report has one line for each account** that is open while it is printed, in the order of
the array, with the whole name, no two of them with one name. The balance and the session of a
line are those the account had at some moment while the report was printed. -/
theorem report_of_run (hsendable : ∀ r, sendable r → r.HasName)
    (hr : Run (watched sendable parent) (watchedStart sendable) (tr ++ e :: tr') s)
    (hout : e.out = .print (some text)) :
    ∃ tr₁ l tr₂ rows, tr = tr₁ ++ l :: tr₂ ∧ Since l tr₂ ∧ text = reportText rows ∧
      rows.length = l.pre.server.shared.accountsNo ∧ Lines l.pre.server.shared tr₂ rows ∧
      (rows.map Row.name).Nodup := by
  obtain ⟨hrun, he, -⟩ := hr.split
  rcases hop : e.op with ⟨p, i⟩ | stop
  · obtain ⟨out, hclient, -⟩ := clientStep_cases he hop
    rw [hout] at hclient
    cases hclient
  · obtain ⟨report, hprint, -, -, hstep⟩ := printStep_cases he hop
    obtain rfl : some text = report := WatchedOut.print.inj (hout.symm.trans hprint)
    obtain ⟨tr₁, l, tr₂, rfl, h⟩ := printing_of_run hsendable hrun hstep.of_report.1
    rcases hstep.holds h.holds h.still h.titled with
      ⟨hnone, -⟩ | ⟨hsome, rows, hlength, hlines, htext⟩
    · cases hnone
    · refine ⟨tr₁, l, tr₂, rows, rfl, h.since, (Option.some.inj hsome).trans htext, hlength,
        hlines, ?_⟩
      rw [hlines.names, hlength]
      refine List.nodup_range.map_on fun a ha b hb hname => ?_
      exact h.distinct a b (List.mem_range.mp ha) (List.mem_range.mp hb) hname

/-- The account that is found in neither state has an empty last column. -/
theorem report_of_run_watch : ∃ tr₁ l tr₂ rows, watch.1 = tr₁ ++ l :: tr₂ ∧ Since l tr₂ ∧
    reportText [(⟨['a'], 0, none⟩ : Row ℚ)] = reportText rows ∧
    rows.length = l.pre.server.shared.accountsNo ∧ Lines l.pre.server.shared tr₂ rows ∧
    (rows.map Row.name).Nodup := by
  have hr : Run (watched (· ∈ visitRequests) 2) (watchedStart (· ∈ visitRequests))
      (watch.1 ++ [watchEnd]) watchEnd.post := Machine.run_event run_watch watch_legal isSome_watch
  exact report_of_run hasName_of_mem_visitRequests hr watchEnd_out

end Cs214.MultithreadedBanking

import Cs214.MultithreadedBanking.Atomic

/-!
# The lock of new accounts

A process that has taken the lock of new accounts never waits for anything until it gives the lock
back: all its points are steps it can take by itself, none of them faults, and `Pc.rank` bounds
how many there are, the longest way being the search of a full array for a name that is not there
(`progress_of_run`).
-/

namespace Cs214.MultithreadedBanking

open Tokenizer (CString nul)

set_option linter.unusedSectionVars false

variable {F : Type} [Arithmetic F] {p q a : ℕ} {sh sh' : ServerSession F} {c c' : Client F}
  {i : Input} {out : Output} {sendable : Request → Prop} {tr tr₁ tr₂ : List (Step F)} {e : Step F}
  {s : Configuration ℕ (ServerSession F) (Client F)} {text : CString} {n index j : ℕ}

/-! ### No step faults -/

/-- The comparisons of a search of `n` accounts that are still to come, at most. -/
def Search.rank (n : ℕ) : Search → ℕ
  | .compare index j => (n - index - 1) * nameMaxLength + (nameMaxLength - j)
  | .result _ => 0

/-- The steps from a point of `client_open` to the unlock, at most. -/
def OpenPc.rank : OpenPc → ℕ
  | .lock => 0
  | .full => 110 + maxAccount * nameMaxLength
  | .count => 109 + maxAccount * nameMaxLength
  | .search n index j => 108 + (Search.compare index j).rank n
  | .found _ => 108
  | .mutex _ => 107
  | .name _ j => 6 + (nameMaxLength - 1 - j)
  | .balance _ => 5
  | .session _ => 4
  | .loadNo => 3
  | .storeNo _ => 2
  | .unlock _ => 1

/-- **The steps to the unlock**, at most. -/
def Pc.rank : Pc F → ℕ
  | .clientOpen l => l.rank
  | .clientStart .count => 2
  | .clientStart (.unlock _) => 1
  | _ => 0

end Cs214.MultithreadedBanking

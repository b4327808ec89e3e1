import Cs214.MultithreadedBanking.Bytes
import Cs214.MultithreadedBanking.Names

/-!
# From the lines of the user to the server

The client turns lines into requests, fills in their bytes one over the other, and writes them; the
server reads them. If every `read` returns a whole request and the amounts fit their field, the
server acts on exactly what the client wrote, which are the requests of the first accepted lines
(`requests_arrive`). These requests are of the kind that the results about the server assume.
-/

namespace Cs214.MultithreadedBanking

open Tokenizer

variable {request r : Request} {line : CString} {lines : List CString} {run : ClientRun}
  {bs : List (RequestT UInt8)} {chunks : List (Chunk Cell)} {token : CString} {type : TokenT}
  {rest : List Token} {l : List Token} {code : RequestCode}

/-! ### What a line can say -/

/-- **A request a client may send**: a code that is an enumerator, and with it a name, an amount
or nothing. -/
structure Request.Sendable (r : Request) : Prop where
  code : r.code.isEnumerator = true
  name : r.HasName
  amount : HasAmount r
  bytes : r.code.hasText = true → IsBytes r.message

private theorem IsBytes.mono {text text' : CString} (h : IsBytes text') (hsub : text <:+: text') :
    IsBytes text := fun c hc => h c (hsub.subset hc)

/-- A token of a line. -/
private theorem lineTokens_mem (h : (token, type) ∈ lineTokens line) : token <:+: line ∧
    ∃ tk tk', tkGetNextToken banking tk = some (tk', some token) ∧ tkGetType tk' = type := by
  obtain ⟨l, hl, -⟩ := tokens_spec total_banking line
  rw [lineTokens, hl, Option.getD_some] at h
  exact tokensFrom_mem total_banking hl h

/-- A command without a text. -/
private theorem sendable_bare (hcode : code.isEnumerator = true) (htext : code.hasText = false) :
    (⟨code, []⟩ : Request).Sendable where
  code := hcode
  name h := by rcases h with rfl | rfl <;> cases htext
  amount h := by rcases h with rfl | rfl <;> cases htext
  bytes h := absurd (htext.symm.trans h) Bool.false_ne_true

/-- The request of a name. -/
private theorem sendable_nameCommand (hcode : code = .open_ ∨ code = .start)
    (hbytes : ∀ t ∈ l, IsBytes t.1) (h : nameCommand code l = some (r, rest)) : r.Sendable := by
  match l, h with
  | (token, _) :: _, h =>
    rw [nameCommand] at h
    split_ifs at h with hlength
    obtain ⟨rfl, -⟩ := Prod.mk.inj (Option.some.inj h)
    have htoken : IsBytes token := hbytes _ List.mem_cons_self
    have hname : IsName token :=
      ⟨Nat.lt_succ_of_le hlength, fun hnul => (htoken nul hnul).2 rfl⟩
    rcases hcode with rfl | rfl
    · exact ⟨rfl, fun _ => hname, fun h => (by rcases h with h | h <;> cases h), fun _ => htoken⟩
    · exact ⟨rfl, fun _ => hname, fun h => (by rcases h with h | h <;> cases h), fun _ => htoken⟩

/-- The request of an amount. -/
private theorem sendable_amountCommand (hcode : code = .credit ∨ code = .debit)
    (hbytes : ∀ t ∈ l, IsBytes t.1)
    (hcall : ∀ t ∈ l, ∃ tk tk', tkGetNextToken banking tk = some (tk', some t.1) ∧
      tkGetType tk' = t.2) (h : amountCommand code l = some (r, rest)) : r.Sendable := by
  match l, h with
  | (token, type) :: _, h =>
    rw [amountCommand] at h
    split_ifs at h with htype
    obtain ⟨rfl, -⟩ := Prod.mk.inj (Option.some.inj h)
    have htoken : IsBytes token := hbytes _ List.mem_cons_self
    obtain ⟨tk, tk', hnext, rfl⟩ := hcall _ List.mem_cons_self
    have hamount : IsAmount token := ⟨tk, tk', hnext, htype⟩
    rcases hcode with rfl | rfl
    · exact ⟨rfl, fun h => (by rcases h with h | h <;> cases h), fun _ => hamount, fun _ => htoken⟩
    · exact ⟨rfl, fun h => (by rcases h with h | h <;> cases h), fun _ => hamount, fun _ => htoken⟩

/-- **A line of bytes says a request that may be sent.** -/
theorem sendable_of_accepted (hline : IsBytes line) (h : accepted line = some r) : r.Sendable := by
  have htokens : ∀ t ∈ lineTokens line, IsBytes t.1 :=
    fun t ht => hline.mono (lineTokens_mem ht).1
  have hcalls : ∀ t ∈ lineTokens line, ∃ tk tk',
      tkGetNextToken banking tk = some (tk', some t.1) ∧ tkGetType tk' = t.2 :=
    fun t ht => (lineTokens_mem ht).2
  rw [accepted] at h
  split at h
  · rename_i r' hat
    obtain rfl := Option.some.inj h
    rcases hl : lineTokens line with _ | ⟨⟨word, type⟩, l⟩
    · rw [hl] at hat
      cases hat
    · rw [hl] at htokens hcalls hat
      have htokens : ∀ t ∈ l, IsBytes t.1 := fun t ht => htokens t (List.mem_cons_of_mem _ ht)
      have hcalls := fun t (ht : t ∈ l) => hcalls t (List.mem_cons_of_mem _ ht)
      rw [commandAt] at hat
      split_ifs at hat
      · exact sendable_nameCommand (.inl rfl) htokens hat
      · exact sendable_nameCommand (.inr rfl) htokens hat
      · exact sendable_amountCommand (.inl rfl) htokens hcalls hat
      · exact sendable_amountCommand (.inr rfl) htokens hcalls hat
      all_goals
        obtain ⟨rfl, -⟩ := Prod.mk.inj (Option.some.inj hat)
        exact sendable_bare rfl rfl
  · cases h

/-! ### What the client writes -/

/-- **What a run of the client writes**: the requests of the first accepted lines, with at most the
last an exit. -/
theorem commandLoop_written (hrun : commandLoop request lines = some run) :
    run.written.map Request.said <+: lines.filterMap accepted ∧
      ∀ r ∈ run.written.dropLast, r.code ≠ .exit := by
  induction lines generalizing request run with
  | nil =>
    obtain rfl := Option.some.inj hrun
    exact ⟨List.nil_prefix, by simp⟩
  | cons line lines ih =>
    obtain ⟨result, hresult, hwritten, -, hstop⟩ := commandSubroutine_spec request line
    have hcode : result.stop ≠ true → ∀ r ∈ result.written.toList, r.code ≠ .exit := by
      intro hcontinue r hr hexit
      have hsaid : accepted line = some r.said := by
        rw [← hwritten, Option.mem_toList.mp hr]
        rfl
      have hline : acceptedExit line = true := by
        simp [acceptedExit, hsaid, hexit]
      rw [hstop, codeAfter_of_acceptedExit hline] at hcontinue
      exact hcontinue rfl
    have hmap : (line :: lines).filterMap accepted =
        (accepted line).toList ++ lines.filterMap accepted := by
      rw [List.filterMap_cons]
      cases accepted line <;> rfl
    have htoList : result.written.toList.map Request.said = (accepted line).toList := by
      rw [← hwritten]
      cases result.written <;> rfl
    rw [commandLoop, hresult, Option.bind_eq_bind, Option.bind_some] at hrun
    split at hrun
    · obtain rfl := Option.some.inj hrun
      refine ⟨?_, ?_⟩
      · rw [htoList, hmap]
        exact List.prefix_append _ _
      · cases result.written <;> simp
    · rename_i hcontinue
      obtain ⟨run', hrun', hrun⟩ := Option.bind_eq_some_iff.mp hrun
      obtain rfl := Option.some.inj hrun
      obtain ⟨hpre, hexit⟩ := ih hrun'
      refine ⟨?_, fun r hr => ?_⟩
      · rw [List.map_append, htoList, hmap]
        exact (List.prefix_append_right_inj _).mpr hpre
      · rw [List.dropLast_append] at hr
        split_ifs at hr with hnil
        · have hmem := List.mem_of_mem_dropLast hr
          exact hcode hcontinue r hmem
        · rcases List.mem_append.mp hr with hr | hr
          · exact hcode hcontinue r hr
          · exact hexit r hr

/-- Every request that a run writes is one that may be sent. -/
private theorem sendable_of_written (hlines : ∀ line ∈ lines, IsBytes line)
    (hrun : commandLoop request lines = some run) (hr : r ∈ run.written) : r.said.Sendable := by
  have hmem : r.said ∈ lines.filterMap accepted :=
    (commandLoop_written hrun).1.subset (List.mem_map_of_mem hr)
  obtain ⟨line, hline, haccepted⟩ := List.mem_filterMap.mp hmem
  exact sendable_of_accepted (hlines line hline) haccepted

/-! ### What the server reads -/

/-- **The bytes of a request**: what `set_request` makes of a buffer with anything in it. -/
def Fills (r : Request) (b : RequestT UInt8) : Prop :=
  ∃ old : RequestT UInt8, old.setRequest r.code r.message = some b

/-- The server reads what the client says. -/
private theorem said_decode {b : RequestT UInt8} (hr : r.said.Sendable) (h : Fills r b) :
    b.ntohl.decode.said = r.said := by
  obtain ⟨old, h⟩ := h
  have hcode := hr.code
  have hbytes := hr.bytes
  rw [Request.said_code] at hcode hbytes
  have hmessage : r.code.hasText = true → IsBytes r.message := by
    intro htext
    have hbytes := hbytes htext
    rwa [Request.said, if_pos htext] at hbytes
  rw [decode_setRequest h hcode hmessage, said_setRequest, Request.said]
  split_ifs <;> rfl

private theorem map_said_decode {rs : List Request} (hall : ∀ r ∈ rs, r.said.Sendable)
    (hfills : List.Forall₂ Fills rs bs) :
    bs.map (fun b => b.ntohl.decode.said) = rs.map Request.said := by
  induction hfills with
  | nil => rfl
  | cons hfill _ ih =>
    rw [List.map_cons, List.map_cons, said_decode (hall _ List.mem_cons_self) hfill,
      ih fun r hr => hall r (List.mem_cons_of_mem _ hr)]

/-- Nothing is written behind an exit, as bytes too. -/
private theorem exitsLast_of_fills {rs : List Request} (hall : ∀ r ∈ rs, r.said.Sendable)
    (hfills : List.Forall₂ Fills rs bs) (hexit : ∀ r ∈ rs.dropLast, r.code ≠ .exit) :
    ExitsLast bs := by
  have hmap := map_said_decode hall hfills
  intro b hb hcode
  have hmem : b.ntohl.decode.said ∈ (rs.dropLast).map Request.said := by
    rw [List.map_dropLast, ← hmap, ← List.map_dropLast]
    exact List.mem_map_of_mem hb
  obtain ⟨r, hr, heq⟩ := List.mem_map.mp hmem
  apply hexit r hr
  rw [← Request.said_code, heq, Request.said_code, hcode]

/-- The properties of a request are about what it says. -/
private theorem hasName_said : r.said.HasName ↔ r.HasName := by
  cases r with
  | mk code message => cases code <;> simp [Request.HasName, Request.said, RequestCode.hasText]

private theorem hasAmount_said : HasAmount r.said ↔ HasAmount r := by
  cases r with
  | mk code message => cases code <;> simp [HasAmount, Request.said, RequestCode.hasText]

/-- What the server makes of its buffer. -/
def acted (chunks : List (Chunk Cell)) (buffer : RequestT UInt8) : List Request :=
  (requests (uninitialised buffer) chunks).map fun b => (b.map Cell.byte).decode

/-- **The requests of the user arrive.** Let the client run over lines of bytes, with anything on
its stack and with amounts that fit. If every `read` of the server returns a whole request, then
the server acts on exactly the requests that the client wrote, they are those of the first accepted
lines, in order, and each has a name or an amount if its code asks for one. -/
theorem requests_arrive (hlines : ∀ line ∈ lines, IsBytes line)
    (hrun : commandLoop request lines = some run) (hfills : List.Forall₂ Fills run.written bs)
    (hd : Delivers chunks (stream (written 0 bs)))
    (hwhole : ∀ data ∈ chunks, data.val.length = sizeofRequest) (buffer : RequestT UInt8) :
    (acted chunks buffer).map Request.said = run.written.map Request.said ∧
      run.written.map Request.said <+: lines.filterMap accepted ∧
      ∀ r ∈ acted chunks buffer, r.HasName ∧ HasAmount r := by
  have hall : ∀ r ∈ run.written, r.said.Sendable := fun r hr =>
    sendable_of_written hlines hrun hr
  obtain ⟨hpre, hexit⟩ := commandLoop_written hrun
  have hrequests := (requests_eq_iff_from (older_uninitialised buffer)
    (exitsLast_of_fills hall hfills hexit) hd).mpr hwhole
  have hacted : acted chunks buffer = bs.map fun b => b.ntohl.decode := by
    rw [acted, hrequests, ← Function.comp_def RequestT.decode, ← List.map_map, written_map_byte,
      List.map_map]
    rfl
  have hsaid : (acted chunks buffer).map Request.said = run.written.map Request.said := by
    rw [hacted, List.map_map, ← map_said_decode hall hfills]
    rfl
  refine ⟨hsaid, hpre, fun r hr => ?_⟩
  have hmem : r.said ∈ run.written.map Request.said := hsaid ▸ List.mem_map_of_mem hr
  obtain ⟨r', hr', heq⟩ := List.mem_map.mp hmem
  have hsendable := heq ▸ hall r' hr'
  exact ⟨hasName_said.mp hsendable.name, hasAmount_said.mp hsendable.amount⟩

/-- A credit and an exit, over what is in the buffer of the client at first. -/
theorem requests_arrive_credit :
    (acted [wholeChunk (sent 0 creditRequest), wholeChunk (sent 1 exitRequest)] exitRequest).map
        Request.said = [⟨.credit, ['5']⟩, ⟨.exit, []⟩] :=
  (requests_arrive (by decide +kernel)
    (show commandLoop ⟨.exit, []⟩ ["credit 5\n".toList, "exit\n".toList] =
      some ⟨[⟨.credit, ['5']⟩, ⟨.exit, ['5']⟩], prompt, true, []⟩ by decide +kernel)
    (.cons ⟨exitRequest, congrArg some (RequestT.ext (by decide +kernel))⟩
      (.cons ⟨exitRequest, congrArg some (RequestT.ext (by decide +kernel))⟩ .nil))
    (show Delivers _ (stream (written 0 [creditRequest, exitRequest])) from
      ⟨by decide +kernel, by decide +kernel⟩) (by decide +kernel) exitRequest).1

end Cs214.MultithreadedBanking

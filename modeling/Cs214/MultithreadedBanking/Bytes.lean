import Cs214.Library.Overwrite
import Cs214.MultithreadedBanking.ClientLoop
import Cs214.MultithreadedBanking.Wire

/-!
# Requests as bytes

`set_request` fills in the `request_t` of the client, a code in network order and a text, over
what is there from the request before. What the server makes of these bytes is the request that
was filled in (`decode_setRequest`): the end of a longer text of an earlier request stands behind
the NUL and is not read.
-/

namespace Cs214.MultithreadedBanking

open Tokenizer (CString nul)

variable {code : RequestCode} {message : CString} {old buffer : RequestT UInt8}

/-! ### Integers -/

/-- The bytes of an `int` in the memory of a little-endian host. -/
def intBytes (n : ℤ) : List UInt8 :=
  let m : ℕ := (n % 2 ^ 32).toNat
  [.ofNat m, .ofNat (m / 2 ^ 8), .ofNat (m / 2 ^ 16), .ofNat (m / 2 ^ 24)]

theorem intBytes_length (n : ℤ) : (intBytes n).length = 4 := rfl

/-- The integers of 32 bits. -/
def IsInt32 (n : ℤ) : Prop := -2 ^ 31 ≤ n ∧ n < 2 ^ 31

/-- **An integer is read as it was stored.** -/
theorem littleEndian_intBytes {n : ℤ} (hn : IsInt32 n) : littleEndian (intBytes n) = n := by
  obtain ⟨hlow, hhigh⟩ := hn
  have hsum (m : ℕ) (hm : m < 2 ^ 32) : m % 256 + 256 * (m / 2 ^ 8 % 256 + 256 *
      (m / 2 ^ 16 % 256 + 256 * (m / 2 ^ 24 % 256 + 256 * 0))) = m := by omega
  have hm : (n % 2 ^ 32).toNat < 2 ^ 32 := by omega
  simp only [littleEndian, intBytes, List.foldr_cons, List.foldr_nil, UInt8.toNat_ofNat']
  rw [hsum _ hm]
  split <;> omega

/-- The integer of a code. -/
def RequestCode.toInt : RequestCode → ℤ
  | .open_ => 0
  | .start => 1
  | .credit => 2
  | .debit => 3
  | .balance => 4
  | .finish => 5
  | .exit => 6
  | .other code => code

/-- The enumerators: the codes a client writes. -/
def RequestCode.isEnumerator : RequestCode → Bool
  | .other _ => false
  | _ => true

/-- An enumerator is read back from its number. -/
private theorem RequestCode.ofInt_toInt (h : code.isEnumerator = true) :
    .ofInt code.toInt = code := by
  cases code <;> first | rfl | cases h

/-- The number of an enumerator is an `int`. -/
private theorem RequestCode.isInt32_toInt (h : code.isEnumerator = true) : IsInt32 code.toInt := by
  cases code <;> first | exact ⟨by decide, by decide⟩ | cases h

/-! ### Texts -/

/-- The bytes of a text. -/
def textBytes (text : CString) : List UInt8 := text.map fun c => .ofNat c.toNat

/-- **A text of bytes**: every character is one byte, and none is NUL. -/
def IsBytes (text : CString) : Prop := ∀ c ∈ text, c.toNat < 256 ∧ c ≠ nul

instance (text : CString) : Decidable (IsBytes text) :=
  List.decidableBAll (fun c : Char => c.toNat < 256 ∧ c ≠ nul) text

theorem textBytes_length (text : CString) : (textBytes text).length = text.length :=
  List.length_map ..

theorem textBytes_append (text text' : CString) :
    textBytes (text ++ text') = textBytes text ++ textBytes text' := List.map_append

/-- A text of characters has no end marker in it. -/
theorem zero_notMem_textBytes {text : CString} (h : IsBytes text) : 0 ∉ textBytes text := by
  intro hmem
  obtain ⟨c, hc, heq⟩ := List.mem_map.mp hmem
  obtain ⟨hlt, hne⟩ := h c hc
  have hzero : c.toNat % 256 = 0 := by
    have h := congrArg UInt8.toNat heq
    rwa [UInt8.toNat_ofNat'] at h
  rw [Nat.mod_eq_of_lt hlt] at hzero
  exact hne (Char.toNat_inj.mp hzero)

/-- It is read back from its bytes. -/
theorem map_textBytes {text : CString} (h : IsBytes text) :
    (textBytes text).map (fun b => Char.ofNat b.toNat) = text := by
  rw [textBytes, List.map_map]
  refine (List.map_congr_left fun c hc => ?_).trans (List.map_id text)
  change Char.ofNat (UInt8.ofNat c.toNat).toNat = c
  rw [UInt8.toNat_ofNat', Nat.mod_eq_of_lt (h c hc).1, Char.ofNat_toNat]

/-! ### `set_request` -/

namespace RequestT

/-- `request->code = htonl(code)`. -/
def setCode (r : RequestT UInt8) (code : RequestCode) : RequestT UInt8 :=
  ⟨overwrite r.bytes 0 (intBytes code.toInt).reverse, by
    rw [length_overwrite, r.size]
    rw [List.length_reverse, intBytes_length, r.size]
    decide⟩

/-- `strcpy` into the union, none being an overflow of it. -/
def setText (r : RequestT UInt8) (message : CString) : Option (RequestT UInt8) :=
  if h : message.length + 1 ≤ nameMaxLength then
    some ⟨overwrite r.bytes 4 (textBytes message ++ [0]), by
      rw [length_overwrite, r.size]
      rw [List.length_append, textBytes_length, r.size]
      have hsize : nameMaxLength + 7 = sizeofRequest := rfl
      rw [List.length_singleton]
      omega⟩
  else none

/-- **`set_request`** in the memory of the client. -/
def setRequest (r : RequestT UInt8) (code : RequestCode) (message : CString) :
    Option (RequestT UInt8) :=
  match code with
  | .open_ | .start | .credit | .debit => (r.setCode code).setText message
  | _ => some (r.setCode code)

/-- **What the server makes of a buffer** in network order. -/
theorem decode_ntohl (r : RequestT UInt8) : r.ntohl.decode =
    ⟨.ofInt (littleEndian (r.bytes.take 4).reverse),
      (fieldText 0 ((r.bytes.drop 4).take nameMaxLength)).map fun b => Char.ofNat b.toNat⟩ := by
  have hfour : (r.bytes.take 4).reverse.length = 4 := by simp [r.size, sizeofRequest]
  simp only [decode, ntohl, List.take_left' hfour, List.drop_left' hfour]
  rfl

private theorem four_le (r : RequestT UInt8) : 4 ≤ r.bytes.length := by
  rw [r.size]
  decide

/-- The code of a request is read as it was stored. -/
private theorem decode_setCode (r : RequestT UInt8) (h : code.isEnumerator = true) :
    (r.setCode code).ntohl.decode = ⟨code, r.ntohl.decode.message⟩ := by
  have hlength : (intBytes code.toInt).reverse.length = 4 := rfl
  have hcode : ((r.setCode code).bytes.drop 0).take (intBytes code.toInt).reverse.length =
      (intBytes code.toInt).reverse := take_drop_overwrite (Nat.zero_le _)
  rw [hlength, List.drop_zero] at hcode
  have htext : (r.setCode code).bytes.drop 4 = r.bytes.drop 4 :=
    drop_overwrite_of_le (i := 0) hlength.le (Nat.zero_le _)
  rw [decode_ntohl, decode_ntohl, hcode, htext, List.reverse_reverse,
    littleEndian_intBytes (RequestCode.isInt32_toInt h), RequestCode.ofInt_toInt h]

/-- The text of a request is read as it was stored. -/
private theorem decode_setText {r : RequestT UInt8} (h : r.setText message = some buffer)
    (hmessage : IsBytes message) : buffer.ntohl.decode = ⟨r.ntohl.decode.code, message⟩ := by
  unfold setText at h
  split at h
  · rename_i hlength
    obtain rfl := Option.some.inj h
    have hcode : (overwrite r.bytes 4 (textBytes message ++ [0])).take 4 = r.bytes.take 4 :=
      take_overwrite le_rfl r.four_le
    rw [decode_ntohl, decode_ntohl, hcode, text_overwrite (zero_notMem_textBytes hmessage)
      r.four_le (by rwa [textBytes_length]), map_textBytes hmessage]
  · cases h

end RequestT

/-- **The server reads what was filled in.** Whatever the buffer of the client held before,
`set_request` on its bytes is `set_request` on the request that a server would read from it. -/
theorem decode_setRequest (h : old.setRequest code message = some buffer)
    (hcode : code.isEnumerator = true) (hmessage : code.hasText = true → IsBytes message) :
    buffer.ntohl.decode = setRequest old.ntohl.decode code message := by
  have hdecode := old.decode_setCode hcode
  cases code with
  | open_ | start | credit | debit =>
    rw [RequestT.decode_setText h (hmessage rfl), hdecode]
    rfl
  | balance | finish | exit =>
    obtain rfl := Option.some.inj h
    rw [hdecode]
    rfl
  | other => cases hcode

end Cs214.MultithreadedBanking

import Cs214.MultithreadedBanking.Model

/-!
# Requests on the wire

The client writes each request as the bytes of a `request_t`, and the server reads into one
buffer, once for each request it acts on. The socket may deliver the bytes in any pieces. A byte
carries the number of the request it was written with, so that it shows what a request that the
server acts on is made of: `requests_eq_iff` says that the server acts on the requests that were
written exactly if every `read` returns a whole one.
-/

namespace Cs214.MultithreadedBanking

open Tokenizer (CString nul)

variable {β γ : Type} {i : ℕ}

/-! ### The buffer -/

/-- `sizeof(request_t)`: the code, the union of 101 characters, and 3 bytes of padding. -/
def sizeofRequest : ℕ := 108

/-- The bytes of a `request_t`. -/
@[ext] structure RequestT (β : Type) where
  bytes : List β
  size : bytes.length = sizeofRequest

/-- What one `read` can return: at most as many bytes as it is asked for. -/
abbrev Chunk (β : Type) := { data : List β // data.length ≤ sizeofRequest }

namespace RequestT

def map (f : β → γ) (r : RequestT β) : RequestT γ := ⟨r.bytes.map f, by simp [r.size]⟩

/-- `request->code = ntohl(request->code)` in the memory of a little-endian host. -/
def ntohl (r : RequestT β) : RequestT β :=
  ⟨(r.bytes.take 4).reverse ++ r.bytes.drop 4, by simp [r.size, sizeofRequest]⟩

/-- What `read` leaves in the buffer: the bytes it returns, and behind them the old ones. -/
def read (r : RequestT β) (data : Chunk β) : RequestT β :=
  ⟨data.val ++ r.bytes.drop data.val.length, by
    have h := data.property
    rw [List.length_append, List.length_drop, r.size]
    omega⟩

/-- `ntohl` is its own inverse. -/
private theorem ntohl_ntohl (r : RequestT β) : r.ntohl.ntohl = r := by
  have hfour : (r.bytes.take 4).reverse.length = 4 := by simp [r.size, sizeofRequest]
  ext1
  simp only [ntohl]
  rw [List.take_left' hfour, List.drop_left' hfour, List.reverse_reverse, List.take_append_drop]

private theorem ntohl_injective : Function.Injective (ntohl : RequestT β → RequestT β) :=
  Function.Involutive.injective ntohl_ntohl

end RequestT

/-- The integer of four bytes in the memory of a little-endian host. -/
def littleEndian (bytes : List UInt8) : ℤ :=
  let n : ℕ := bytes.foldr (fun b n => b.toNat + 256 * n) 0
  if n < 2 ^ 31 then n else n - 2 ^ 32

/-- The code of an integer. -/
def RequestCode.ofInt : ℤ → RequestCode
  | 0 => .open_
  | 1 => .start
  | 2 => .credit
  | 3 => .debit
  | 4 => .balance
  | 5 => .finish
  | 6 => .exit
  | code => .other code

/-- What `client()` sees of the buffer. -/
def RequestT.decode (r : RequestT UInt8) : Request :=
  ⟨.ofInt (littleEndian (r.bytes.take 4)),
    (((r.bytes.drop 4).take nameMaxLength).takeWhile (· != 0)).map fun b => Char.ofNat b.toNat⟩

/-! ### Bytes with an origin -/

/-- A byte with the number of the request it was written with, if it was. -/
structure Cell where
  byte : UInt8
  origin : Option ℕ
  deriving DecidableEq, Repr

/-- The bytes of the request of number `i`. -/
def sent (i : ℕ) (r : RequestT UInt8) : RequestT Cell := r.map fun b => ⟨b, some i⟩

/-- The buffer of the server before the first `read`. -/
def uninitialised (r : RequestT UInt8) : RequestT Cell := r.map fun b => ⟨b, none⟩

/-- The requests that the client writes, from number `i` on. -/
def written : ℕ → List (RequestT UInt8) → List (RequestT Cell)
  | _, [] => []
  | i, r :: rs => sent i r :: written (i + 1) rs

/-- The bytes on the socket. -/
def stream (rs : List (RequestT Cell)) : List Cell := rs.flatMap RequestT.bytes

/-- **A way to deliver a stream**: in pieces that are not empty, in order. -/
structure Delivers (chunks : List (Chunk Cell)) (socket : List Cell) : Prop where
  flatten : (chunks.map Subtype.val).flatten = socket
  nonempty : ∀ data ∈ chunks, data.val ≠ []

/-! ### The server -/

/-- **`listen_request`**: the result of `read`, and the buffer. -/
def listenRequest (request : RequestT Cell) (data : Chunk Cell) : ℕ × RequestT Cell :=
  (data.val.length, (request.read data).ntohl)

/-- **The requests that `client()` acts on**, by what `read` returns; at the end that is 0. -/
def requests : RequestT Cell → List (Chunk Cell) → List (RequestT Cell)
  | _, [] => []
  | request, data :: chunks =>
    let (byteRead, request) := listenRequest request data
    if byteRead = 0 then []
    else request ::
      if (request.map Cell.byte).decode.code = .exit then [] else requests request chunks

/-- **What a client writes**: it stops behind `EXIT`. -/
def ExitsLast (rs : List (RequestT UInt8)) : Prop :=
  ∀ r ∈ rs.dropLast, r.ntohl.decode.code ≠ .exit

/-! ### Which deliveries are read as they were written -/

variable {r : RequestT UInt8} {rs : List (RequestT UInt8)} {request : RequestT Cell}
  {data : Chunk Cell} {chunks : List (Chunk Cell)} {socket : List Cell}

/-- The bytes that arrive are those that were sent. -/
private theorem map_byte_sent (i : ℕ) (r : RequestT UInt8) :
    ((sent i r).ntohl.map Cell.byte) = r.ntohl := by
  ext1
  simp [sent, RequestT.map, RequestT.ntohl, ← List.map_take, ← List.map_drop, Function.comp_def]

/-- The bytes of a buffer come from requests before number `i`. -/
def Older (i : ℕ) (request : RequestT Cell) : Prop :=
  ∀ cell ∈ request.bytes, ∀ j, cell.origin = some j → j < i

/-- What is on the stack at first is older than any request. -/
theorem older_uninitialised (r : RequestT UInt8) : Older i (uninitialised r) := by
  intro cell hcell j hj
  obtain ⟨b, -, rfl⟩ := List.mem_map.mp hcell
  cases hj

private theorem older_sent (i : ℕ) (r : RequestT UInt8) : Older (i + 1) (sent i r).ntohl := by
  intro cell hcell j hj
  have hmem : cell ∈ (sent i r).bytes := by
    simp only [RequestT.ntohl, List.mem_append, List.mem_reverse] at hcell
    rcases hcell with h | h
    · exact List.mem_of_mem_take h
    · exact List.mem_of_mem_drop h
  obtain ⟨b, -, rfl⟩ := List.mem_map.mp hmem
  obtain rfl := Option.some.inj hj
  exact Nat.lt_succ_self i

/-- **A request is read as it was written** exactly if it is read at once: otherwise the last byte
in the buffer is an older one. -/
theorem read_eq_sent_iff (hold : Older i request) (hstarts : data.val <+: (sent i r).bytes) :
    request.read data = sent i r ↔ data.val.length = sizeofRequest := by
  constructor
  · intro h
    by_contra hne
    have hlt : data.val.length < sizeofRequest := lt_of_le_of_ne data.property hne
    have hcell : request.bytes[sizeofRequest - 1]? = (sent i r).bytes[sizeofRequest - 1]? := by
      rw [← h, RequestT.read, List.getElem?_append_right (by omega), List.getElem?_drop]
      congr 1
      omega
    -- this byte is in the buffer from before, and in the request it is of number `i`
    have hlast : sizeofRequest - 1 < request.bytes.length := by
      rw [request.size]
      decide
    have hlast' : sizeofRequest - 1 < r.bytes.length := by
      rw [r.size]
      decide
    rw [List.getElem?_eq_getElem hlast, sent, RequestT.map, List.getElem?_map,
      List.getElem?_eq_getElem hlast'] at hcell
    have horigin := congrArg Cell.origin (Option.some.inj hcell)
    exact lt_irrefl i (hold _ (List.getElem_mem hlast) i horigin)
  · intro h
    have hdata : data.val = (sent i r).bytes :=
      hstarts.eq_of_length (h.trans (sent i r).size.symm)
    ext1
    simp [RequestT.read, hdata, (sent i r).size, request.size]

/-- Where nothing was sent nothing is delivered. -/
private theorem Delivers.eq_nil (h : Delivers chunks []) : chunks = [] := by
  cases chunks with
  | nil => rfl
  | cons data chunks =>
    have hnil := List.append_eq_nil_iff.mp h.flatten
    exact absurd hnil.1 (h.nonempty data List.mem_cons_self)

/-- A `read` before the end. -/
private theorem requests_cons (h : data.val ≠ []) : requests request (data :: chunks) =
    (request.read data).ntohl :: if ((request.read data).ntohl.map Cell.byte).decode.code = .exit
      then [] else requests (request.read data).ntohl chunks :=
  if_neg (mt List.length_eq_zero_iff.mp h)

/-- The induction is on the requests; the buffer holds the bytes of earlier ones. -/
theorem requests_eq_iff_from (hold : Older i request) (hexit : ExitsLast rs)
    (hd : Delivers chunks (stream (written i rs))) :
    requests request chunks = (written i rs).map RequestT.ntohl ↔
      ∀ data ∈ chunks, data.val.length = sizeofRequest := by
  induction rs generalizing i request chunks with
  | nil =>
    obtain rfl := hd.eq_nil
    exact iff_of_true rfl (fun _ h => nomatch h)
  | cons r rs ih =>
    have hsize := (sent i r).size
    cases chunks with
    | nil =>
      have hnil := List.append_eq_nil_iff.mp hd.flatten.symm
      rw [hnil.1] at hsize
      cases hsize
    | cons data chunks =>
      have hflat : data.val ++ (chunks.map Subtype.val).flatten =
          (sent i r).bytes ++ stream (written (i + 1) rs) := hd.flatten
      have hstarts : data.val <+: (sent i r).bytes :=
        List.prefix_of_prefix_length_le ⟨_, hflat⟩ (List.prefix_append _ _)
          (data.property.trans hsize.ge)
      rw [requests_cons (hd.nonempty data List.mem_cons_self), written, List.map_cons,
        List.cons.injEq, RequestT.ntohl_injective.eq_iff, read_eq_sent_iff hold hstarts,
        List.forall_mem_cons]
      -- behind a whole request the stream starts with the next one
      refine and_congr_right fun hwhole => ?_
      have hread := (read_eq_sent_iff hold hstarts).mpr hwhole
      have hdata : data.val = (sent i r).bytes := hstarts.eq_of_length (hwhole.trans hsize.symm)
      have hd' : Delivers chunks (stream (written (i + 1) rs)) := by
        rw [hdata] at hflat
        exact ⟨List.append_cancel_left hflat,
          fun data h => hd.nonempty data (List.mem_cons_of_mem _ h)⟩
      rw [hread, map_byte_sent]
      split_ifs with hcode
      · -- nothing is written behind `EXIT`
        have hrs : rs = [] := by
          by_contra hrs
          refine hexit r ?_ hcode
          rw [List.dropLast_cons_of_ne_nil hrs]
          exact List.mem_cons_self
        subst hrs
        obtain rfl := hd'.eq_nil
        exact iff_of_true rfl (fun _ h => nomatch h)
      · refine ih (older_sent i r) (fun r' h => hexit r' ?_) hd'
        have hrs : rs ≠ [] := by
          rintro rfl
          cases h
        rw [List.dropLast_cons_of_ne_nil hrs]
        exact List.mem_cons_of_mem r h

theorem written_map_byte (i : ℕ) (rs : List (RequestT UInt8)) :
    ((written i rs).map RequestT.ntohl).map (RequestT.map Cell.byte) = rs.map RequestT.ntohl := by
  induction rs generalizing i with
  | nil => rfl
  | cons r rs ih =>
    rw [written, List.map_cons, List.map_cons, List.map_cons, ih, map_byte_sent]

/-- **Which deliveries are read as they were written.** Whatever is in the buffer of the server at
first, it acts on exactly the requests that the client wrote, each made of the bytes of its own
`write`, if and only if every `read` returns a whole request. -/
theorem requests_eq_iff (rs : List (RequestT UInt8)) (buffer : RequestT UInt8)
    (hexit : ExitsLast rs) (hd : Delivers chunks (stream (written 0 rs))) :
    (requests (uninitialised buffer) chunks = (written 0 rs).map RequestT.ntohl ↔
      ∀ data ∈ chunks, data.val.length = sizeofRequest) ∧
    ((∀ data ∈ chunks, data.val.length = sizeofRequest) →
      (requests (uninitialised buffer) chunks).map (RequestT.map Cell.byte) =
        rs.map RequestT.ntohl) := by
  have hiff := requests_eq_iff_from (older_uninitialised buffer) hexit hd
  exact ⟨hiff, fun h => by rw [hiff.mpr h, written_map_byte]⟩

/-- A credit of 5. -/
def creditRequest : RequestT UInt8 := ⟨[0, 0, 0, 2, 53] ++ List.replicate 103 0, by decide⟩

def exitRequest : RequestT UInt8 := ⟨[0, 0, 0, 6] ++ List.replicate 104 0, by decide⟩

/-- The bytes of a request at once. -/
def wholeChunk (r : RequestT Cell) : Chunk Cell := ⟨r.bytes, r.size.le⟩

/-- A credit and an exit, each read at once. -/
theorem requests_eq_iff_credit :
    requests (uninitialised exitRequest) [wholeChunk (sent 0 creditRequest),
        wholeChunk (sent 1 exitRequest)] =
      [(sent 0 creditRequest).ntohl, (sent 1 exitRequest).ntohl] :=
  (requests_eq_iff [creditRequest, exitRequest] exitRequest
    (by simp only [ExitsLast]; decide +kernel) ⟨by decide +kernel, by decide +kernel⟩).1.mpr
    (by decide +kernel)

/-- A credit whose code is read apart from its amount is acted on twice. -/
theorem not_requests_eq :
    ¬∀ (rs : List (RequestT UInt8)) (buffer : RequestT UInt8) (chunks : List (Chunk Cell)),
      ExitsLast rs → Delivers chunks (stream (written 0 rs)) →
        (requests (uninitialised buffer) chunks).map (RequestT.map Cell.byte) =
          rs.map RequestT.ntohl := by
  intro h
  have heq := h [creditRequest] creditRequest
    [⟨(sent 0 creditRequest).bytes.take 4, by decide⟩,
      ⟨(sent 0 creditRequest).bytes.drop 4, by decide⟩]
    (by simp only [ExitsLast]; decide) ⟨by decide +kernel, by decide +kernel⟩
  exact absurd (congrArg List.length heq) (by decide +kernel)

/-- A request that is read is the one that `client()` goes on to handle. -/
theorem client_listen {F : Type} [Arithmetic F] {p : ℕ} {sh : ServerSession F} {c : Client F}
    (hpc : c.pc = .listen) (hne : data.val ≠ []) :
    client p sh c (.read (listenRequest request data).1
        ((listenRequest request data).2.map Cell.byte).decode) =
      some (sh, { c with
        request := ((request.read data).ntohl.map Cell.byte).decode
        pc := .check }, .silent) := by
  have hlength : ((listenRequest request data).1 : ℤ) ≠ 0 := by
    simpa [listenRequest] using hne
  unfold client
  rw [hpc]
  simp only [afterRead, if_neg hlength, move]
  rfl

end Cs214.MultithreadedBanking

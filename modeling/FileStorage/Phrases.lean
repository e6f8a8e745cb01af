import FileStorage.Codec

/-! The table of status phrases in `protocol.c`, from which `send_response` copies `MAX_PATH`
bytes although its rows are shorter. -/

namespace FileStorage

open Channel

def ResponseCode.code : ResponseCode → Nat
  | success => 0
  | accepted => 1
  | internalError => 2
  | badRequest => 3
  | notFound => 4
  | unauthorized => 5
  | missingBody => 6
  | fileTooBig => 7
  | filesExpelled => 8
  | fileExists => 9
  | awaiting => 10
  | noMoreCon => 11

def ResponseCode.text : ResponseCode → String
  | success => "Operation successfull"
  | accepted => "Connection accepted"
  | internalError => "Internal server error"
  | badRequest => "Bad request"
  | notFound => "Entity not found"
  | unauthorized => "Unauthorized access"
  | missingBody => "Missing message body"
  | fileTooBig => "File is too big"
  | filesExpelled => "File was expelled"
  | fileExists => "File already exists"
  | awaiting => "Awaiting for lock"
  | noMoreCon => "No more connections"

def ResponseCode.phrase (c : ResponseCode) : Bytes :=
  c.text.toList.map fun letter => letter.val.toUInt8

/-- The rows of `status_message` in their order. -/
def ResponseCode.all : List ResponseCode :=
  [success, accepted, internalError, badRequest, notFound, unauthorized, missingBody, fileTooBig,
    filesExpelled, fileExists, awaiting, noMoreCon]

def rowSize : Nat := 128

def statusRow (c : ResponseCode) : Bytes := c.phrase ++ List.replicate (rowSize - c.phrase.length) 0

def statusMessage : Bytes := ResponseCode.all.flatMap statusRow

/-- `get_status_message`, as a distance from the start of the table. -/
def getStatusMessage (code : Nat) : Option Nat := if code > 11 then none else some (rowSize * code)

/-- The `MAX_PATH` bytes behind a pointer into the table, if the table has that many. -/
def statusPhrase (pointer : Nat) : Option Bytes :=
  if pointer + maxPath ≤ statusMessage.length then
    some ((statusMessage.drop pointer).take maxPath)
  else none

/-- A response whose buffers have lengths of type `size_t`. -/
abbrev SizedResponse :=
  { r : Response // r.filePath.length < sizeBound ∧ r.body.length < sizeBound }

/-- `send_response` with the phrase of its status. -/
def sendStatusResponse (r : Response) : Option (List Bytes) :=
  ((getStatusMessage r.status.code).bind statusPhrase).map fun phrase =>
    sendResponseWrites ⟨r.status.code, phrase, r.filePath, r.body⟩

/-- What the responses of a list leave on the wire. -/
def responseStream : List Response → Option Bytes
  | [] => some []
  | r :: rs => (sendStatusResponse r).bind fun writes =>
    (responseStream rs).map fun stream => writes.flatten ++ stream

def recvResponses : Nat → Reader UInt8 (List ReceivedResponse)
  | 0 => return []
  | n + 1 => do
    let r ← recvResponse
    let rs ← recvResponses n
    return r :: rs

def cString (b : Bytes) : Bytes := b.takeWhile fun c => c ≠ 0

/-- The same status, phrase, path and body. -/
structure ReceivedResponse.Same (got : ReceivedResponse) (r : Response) : Prop where
  status : got.status = r.status.code
  phrase : cString got.statusPhrase = r.status.phrase
  filePath : got.filePath = r.filePath
  body : got.body = r.body

/-- The responses are sent from inside the table, and they come out of the stream as they went in,
with nothing left over. -/
def RoundTrips (rs : List Response) : Prop :=
  ∃ stream got, responseStream rs = some stream ∧
    (recvResponses rs.length).Gets (.full stream) got (.full []) ∧
    List.Forall₂ ReceivedResponse.Same got rs

theorem getStatusMessage_code (c : ResponseCode) :
    getStatusMessage c.code = some (rowSize * c.code) := by
  cases c <;> rfl

theorem phrase_lt_rowSize (c : ResponseCode) : c.phrase.length < rowSize := by
  cases c <;> decide

theorem length_statusRow (c : ResponseCode) : (statusRow c).length = rowSize := by
  have hlt := phrase_lt_rowSize c
  rw [statusRow, List.length_append, List.length_replicate]
  omega

theorem length_statusMessage : statusMessage.length = 12 * rowSize := by
  rw [statusMessage, List.length_flatMap, List.map_congr_left fun c _ => length_statusRow c]
  rfl

/-- The rows of a table from one of them on. -/
theorem drop_flatMap_rows {α β : Type} {row : α → List β} {size : Nat}
    (hrow : ∀ a, (row a).length = size) (l : List α) (k : Nat) :
    (l.flatMap row).drop (size * k) = (l.drop k).flatMap row := by
  induction k generalizing l with
  | zero => rfl
  | succ k ih =>
    cases l with
    | nil => simp
    | cons a l =>
      have hsize : size * (k + 1) = (row a).length + size * k := by
        rw [hrow a, Nat.mul_succ, Nat.add_comm]
      rw [hsize, List.flatMap_cons, List.drop_length_add_append, ih, List.drop_succ_cons]

theorem drop_statusMessage (c : ResponseCode) :
    ∃ rows, statusMessage.drop (rowSize * c.code) = statusRow c ++ rows := by
  have hall : ResponseCode.all.drop c.code = c :: ResponseCode.all.drop (c.code + 1) := by
    cases c <;> rfl
  rw [statusMessage, drop_flatMap_rows length_statusRow, hall, List.flatMap_cons]
  exact ⟨_, rfl⟩

/-- A phrase has no NUL in it, and a row of the table has one behind it. -/
theorem cString_statusRow (c : ResponseCode) (rest : Bytes) :
    cString (statusRow c ++ rest) = c.phrase := by
  have hnonzero : 0 ∉ c.phrase := by
    cases c <;> decide
  obtain ⟨k, hk⟩ := Nat.exists_eq_add_one_of_ne_zero (Nat.sub_ne_zero_of_lt (phrase_lt_rowSize c))
  rw [cString, statusRow, hk, List.append_assoc,
    List.takeWhile_append_of_pos fun b hb => decide_eq_true (ne_of_mem_of_not_mem hb hnonzero),
    List.replicate_succ, List.cons_append,
    List.takeWhile_cons_of_neg (by simp), List.append_nil]

/-- Behind the fifth row the table has fewer than `MAX_PATH` bytes. -/
theorem statusPhrase_isSome (c : ResponseCode) :
    (statusPhrase (rowSize * c.code)).isSome ↔ c.code ≤ 4 := by
  unfold statusPhrase
  rw [length_statusMessage]
  cases c <;> decide

theorem cString_statusPhrase {c : ResponseCode} {phrase : Bytes}
    (h : statusPhrase (rowSize * c.code) = some phrase) :
    phrase.length = maxPath ∧ cString phrase = c.phrase := by
  unfold statusPhrase at h
  split at h
  · rename_i hin
    obtain rfl := Option.some.inj h
    obtain ⟨rows, hrows⟩ := drop_statusMessage c
    constructor
    · rw [List.length_take, List.length_drop]
      omega
    · have hsize : (statusRow c).length ≤ maxPath := by
        rw [length_statusRow]
        decide
      rw [hrows, List.take_append, List.take_of_length_le hsize, cString_statusRow]
  · cases h

/-- A response whose phrase lies inside the table, as it is on the wire. -/
theorem sendStatusResponse_isSome (r : Response) :
    (sendStatusResponse r).isSome ↔ r.status.code ≤ 4 := by
  rw [sendStatusResponse, getStatusMessage_code, Option.isSome_map, Option.bind_some]
  exact statusPhrase_isSome r.status

theorem gets_recvResponse_status {r : Response} {writes : List Bytes}
    (hp : r.filePath.length < sizeBound) (hb : r.body.length < sizeBound)
    (h : sendStatusResponse r = some writes) (rest : Bytes) :
    ∃ got, got.Same r ∧ recvResponse.Gets (.full (writes.flatten ++ rest)) got (.full rest) := by
  rw [sendStatusResponse, getStatusMessage_code, Option.bind_some] at h
  obtain ⟨phrase, hphrase, rfl⟩ := Option.map_eq_some_iff.mp h
  obtain ⟨hlen, hstring⟩ := cString_statusPhrase hphrase
  have hcode : r.status.code < 2 ^ 32 := by
    cases r.status <;> decide
  exact ⟨_, ⟨rfl, hstring, rfl, rfl⟩,
    gets_recvResponse ⟨⟨r.status.code, phrase, r.filePath, r.body⟩, hcode, hlen, hp, hb⟩ rest⟩

theorem responseStream_isSome (rs : List Response) :
    (responseStream rs).isSome ↔ ∀ r ∈ rs, r.status.code ≤ 4 := by
  induction rs with
  | nil => simp [responseStream]
  | cons r rs ih =>
    rw [List.forall_mem_cons, ← ih, ← sendStatusResponse_isSome, responseStream]
    cases sendStatusResponse r with
    | none => simp
    | some writes => simp

theorem gets_recvResponses {rs : List SizedResponse} {stream : Bytes}
    (h : responseStream (rs.map Subtype.val) = some stream) :
    ∃ got, List.Forall₂ ReceivedResponse.Same got (rs.map Subtype.val) ∧
      (recvResponses rs.length).Gets (.full stream) got (.full []) := by
  induction rs generalizing stream with
  | nil =>
    obtain rfl : [] = stream := Option.some.inj h
    exact ⟨[], .nil, Reader.gets_ret _ _⟩
  | cons r rs ih =>
    obtain ⟨writes, hwrites, h⟩ := Option.bind_eq_some_iff.mp h
    obtain ⟨rest, hrest, rfl⟩ := Option.map_eq_some_iff.mp h
    obtain ⟨got, hsame, hgot⟩ :=
      gets_recvResponse_status r.property.1 r.property.2 hwrites rest
    obtain ⟨gots, hsames, hgots⟩ := ih hrest
    exact ⟨got :: gots, .cons hsame hsames, hgot.bind (hgots.bind (Reader.gets_ret _ _))⟩

/-- Responses survive the way from the table to the client exactly when all their phrases have
`MAX_PATH` bytes of the table behind them, which those from `UNAUTHORIZED` on have not. -/
theorem roundTrips_iff (rs : List SizedResponse) :
    RoundTrips (rs.map Subtype.val) ↔ ∀ r ∈ rs, r.val.status.code ≤ ResponseCode.notFound.code := by
  have hall : (∀ r ∈ rs, r.val.status.code ≤ ResponseCode.notFound.code) ↔
      ∀ r ∈ rs.map Subtype.val, r.status.code ≤ 4 := by
    rw [List.forall_mem_map]
    rfl
  rw [hall, ← responseStream_isSome]
  constructor
  · rintro ⟨stream, got, hstream, -, -⟩
    rw [hstream]
    rfl
  · intro h
    obtain ⟨stream, hstream⟩ := Option.isSome_iff_exists.mp h
    obtain ⟨got, hsame, hgot⟩ := gets_recvResponses hstream
    have hlen : (rs.map Subtype.val).length = rs.length := List.length_map _
    exact ⟨stream, got, hstream, hlen ▸ hgot, hsame⟩

/-- The answer to a client without permission is copied from beyond the table. -/
theorem not_roundTrips_unauthorized :
    ¬ RoundTrips [⟨.unauthorized, stringBytes (slash 'a'), []⟩] := by
  rintro ⟨stream, got, hstream, -⟩
  have hnone : responseStream [⟨.unauthorized, stringBytes (slash 'a'), []⟩] = none := by
    decide +kernel
  rw [hnone] at hstream
  cases hstream

end FileStorage

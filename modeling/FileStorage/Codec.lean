import FileStorage.Worker

/-! The frames of `protocol.c` on the wire: what `send_request` and `send_response` write, and
`recv_response`. -/

namespace FileStorage

open Channel

/-! ### Fields -/

/-- The bytes of a field of `size` bytes in memory. -/
def fieldBytes : Nat → Nat → Bytes
  | 0, _ => []
  | size + 1, n => UInt8.ofNat n :: fieldBytes size (n / 256)

@[simp] theorem length_fieldBytes (size n : Nat) : (fieldBytes size n).length = size := by
  induction size generalizing n with
  | zero => rfl
  | succ size ih => rw [fieldBytes, List.length_cons, ih]

theorem fieldValue_fieldBytes {size n : Nat} (h : n < 256 ^ size) :
    fieldValue (fieldBytes size n) = n := by
  induction size generalizing n with
  | zero =>
    have hn : n = 0 := by simpa using h
    rw [hn]
    rfl
  | succ size ih =>
    have hdiv : n / 256 < 256 ^ size := by
      rw [pow_succ] at h
      exact Nat.div_lt_of_lt_mul (by omega)
    have hv : fieldValue (fieldBytes (size + 1) n) =
        (UInt8.ofNat n).toNat + 256 * fieldValue (fieldBytes size (n / 256)) := rfl
    have hb : (UInt8.ofNat n).toNat = n % 256 := by simp
    rw [hv, ih hdiv, hb]
    omega

/-! ### Frames -/

/-- The `write` calls for the bytes of a buffer. -/
def contentWrites (buffer : Bytes) : List Bytes := if buffer.length ≠ 0 then [buffer] else []

/-- The `write` calls for a buffer that comes with its length. -/
def bufferWrites (buffer : Bytes) : List Bytes :=
  fieldBytes 8 buffer.length :: contentWrites buffer

/-- The `write` calls of `send_request`. -/
def sendRequest (r : Received) : List Bytes :=
  fieldBytes 4 r.type :: bufferWrites r.filePath ++ bufferWrites r.body

/-- A `response_t` as `recv_response` leaves it. -/
structure ReceivedResponse where
  status : Nat
  statusPhrase : Bytes
  filePath : Bytes
  body : Bytes
  deriving DecidableEq

/-- The `write` calls of `send_response`; `statusPhrase` are the `MAX_PATH` bytes behind the
pointer to the phrase. -/
def sendResponseWrites (r : ReceivedResponse) : List Bytes :=
  fieldBytes 4 r.status :: r.statusPhrase :: bufferWrites r.filePath ++ bufferWrites r.body

def recvResponse : Reader UInt8 ReceivedResponse := do
  Reader.alloc
  let status ← recvField 4
  let data ← Reader.read maxPath
  let pathLen ← recvField 8
  let filePath ← recvBuffer pathLen
  let bodySize ← recvField 8
  let body ← recvBuffer bodySize
  return ⟨status, data ++ List.replicate (maxPath - data.length) 0, filePath, body⟩

def lengths (writes : List Bytes) : List Nat := writes.map List.length

/-- The type is a value of the enumeration, and the lengths are of type `size_t`. -/
structure Received.Fits (r : Received) : Prop where
  type : r.type < 2 ^ 32
  filePath : r.filePath.length < sizeBound
  body : r.body.length < sizeBound

structure ReceivedResponse.Fits (r : ReceivedResponse) : Prop where
  status : r.status < 2 ^ 32
  statusPhrase : r.statusPhrase.length = maxPath
  filePath : r.filePath.length < sizeBound
  body : r.body.length < sizeBound

/-- A request that can be sent. -/
abbrev SentRequest := { r : Received // r.Fits }

abbrev SentResponse := { r : ReceivedResponse // r.Fits }

def SentRequest.frame (r : SentRequest) : Bytes := (sendRequest r.val).flatten

def SentResponse.frame (r : SentResponse) : Bytes := (sendResponseWrites r.val).flatten

theorem length_bufferWrites (b : Bytes) : (bufferWrites b).flatten.length = 8 + b.length := by
  unfold bufferWrites contentWrites
  split
  · simp
  · rename_i h
    have hb : b.length = 0 := not_not.mp h
    simp [hb]

theorem SentRequest.length_frame (r : SentRequest) :
    r.frame.length = 20 + r.val.filePath.length + r.val.body.length := by
  simp only [frame, sendRequest, List.flatten_cons, List.cons_append, List.flatten_append,
    List.length_append, length_fieldBytes, length_bufferWrites]
  omega

theorem SentResponse.length_frame (r : SentResponse) :
    r.frame.length = 20 + maxPath + r.val.filePath.length + r.val.body.length := by
  simp only [frame, sendResponseWrites, List.flatten_cons, List.cons_append, List.flatten_append,
    List.length_append, length_fieldBytes, length_bufferWrites, r.property.statusPhrase]
  omega

/-! ### Round trips -/

theorem gets_recvField {size n : Nat} (h : n < 256 ^ size) (rest : Bytes) :
    (recvField size).Gets (.full (fieldBytes size n ++ rest)) n (.full rest) := by
  have hread := Reader.gets_read_full (fieldBytes size n) rest
  rw [length_fieldBytes] at hread
  refine hread.bind ?_
  rw [fieldValue_fieldBytes h]
  exact Reader.gets_ret _ _

theorem gets_recvBuffer (b rest : Bytes) :
    (recvBuffer b.length).Gets (.full ((contentWrites b).flatten ++ rest)) b (.full rest) := by
  unfold recvBuffer contentWrites
  by_cases hb : b.length ≠ 0
  · rw [if_pos hb, if_pos hb, List.flatten_cons, List.flatten_nil, List.append_nil]
    refine (Reader.gets_alloc _ _).bind ((Reader.gets_read_full b rest).bind ?_)
    rw [Nat.sub_self, List.replicate_zero, List.append_nil]
    exact Reader.gets_ret _ _
  · rw [if_neg hb, if_neg hb]
    obtain rfl : b = [] := List.eq_nil_of_length_eq_zero (not_not.mp hb)
    exact Reader.gets_ret _ _

/-- A buffer with its length, and what comes after it. -/
theorem gets_buffer {α : Type} {b : Bytes} (hb : b.length < sizeBound) {rest : Bytes}
    {g : Bytes → Reader UInt8 α} {a : α} {s : Source UInt8} (hg : (g b).Gets (.full rest) a s) :
    ((recvField 8).bind fun size => (recvBuffer size).bind g).Gets
      (.full ((bufferWrites b).flatten ++ rest)) a s := by
  rw [bufferWrites, List.flatten_cons, List.append_assoc]
  exact (gets_recvField hb _).bind ((gets_recvBuffer b rest).bind hg)

theorem gets_recvRequest (r : SentRequest) (rest : Bytes) :
    recvRequest.Gets (.full (r.frame ++ rest)) r.val (.full rest) := by
  obtain ⟨⟨type, path, body⟩, ht, hp, hb⟩ := r
  simp only [SentRequest.frame, sendRequest, List.cons_append, List.flatten_cons,
    List.flatten_append, List.append_assoc]
  refine (Reader.gets_alloc _ _).bind ((gets_recvField ht _).bind ?_)
  exact gets_buffer hp (gets_buffer hb (Reader.gets_ret _ _))

theorem gets_recvResponse (r : SentResponse) (rest : Bytes) :
    recvResponse.Gets (.full (r.frame ++ rest)) r.val (.full rest) := by
  obtain ⟨⟨status, phrase, path, body⟩, hs, hph, hp, hb⟩ := r
  have hlen : phrase.length = maxPath := hph
  have hread := Reader.gets_read_full phrase
    ((bufferWrites path).flatten ++ ((bufferWrites body).flatten ++ rest))
  have hzero : maxPath - phrase.length = 0 := by omega
  rw [hlen] at hread
  simp only [SentResponse.frame, sendResponseWrites, List.cons_append, List.flatten_cons,
    List.flatten_append, List.append_assoc]
  refine (Reader.gets_alloc _ _).bind ((gets_recvField hs _).bind ?_)
  refine hread.bind (gets_buffer hp (gets_buffer hb ?_))
  rw [hzero, List.replicate_zero, List.append_nil]
  exact Reader.gets_ret _ _

/-- `recv_request` called again and again. -/
def recvRequests : Nat → Reader UInt8 (List Received)
  | 0 => return []
  | n + 1 => do
    let r ← recvRequest
    let rs ← recvRequests n
    return r :: rs

/-- What the requests of a list leave on the wire. -/
def requestStream (rs : List SentRequest) : Bytes := rs.flatMap SentRequest.frame

theorem gets_recvRequests (rs : List SentRequest) (rest : Bytes) :
    (recvRequests rs.length).Gets (.full (requestStream rs ++ rest)) (rs.map Subtype.val)
      (.full rest) := by
  induction rs with
  | nil => exact Reader.gets_ret _ _
  | cons r rs ih =>
    rw [requestStream, List.flatMap_cons, List.append_assoc]
    exact (gets_recvRequest r _).bind (ih.bind (Reader.gets_ret _ _))

theorem requestStream_eq_nil {rs : List SentRequest} (h : requestStream rs = []) : rs = [] := by
  cases rs with
  | nil => rfl
  | cons r rs =>
    have hlen := congrArg List.length h
    rw [requestStream, List.flatMap_cons, List.length_append, r.length_frame, List.length_nil] at hlen
    omega

theorem requestStream_inj_of_le {rs rs' : List SentRequest} (hle : rs.length ≤ rs'.length)
    (h : requestStream rs = requestStream rs') : rs = rs' := by
  have hsplit : requestStream rs' =
      requestStream (rs'.take rs.length) ++ requestStream (rs'.drop rs.length) := by
    rw [requestStream, requestStream, requestStream, ← List.flatMap_append, List.take_append_drop]
  have hleft := gets_recvRequests rs []
  have hright := gets_recvRequests (rs'.take rs.length) (requestStream (rs'.drop rs.length))
  rw [List.length_take, Nat.min_eq_left hle] at hright
  rw [List.append_nil, h, hsplit] at hleft
  -- one number of calls on one stream: the results agree, and so does what is left over
  obtain ⟨hval, hrest⟩ := hleft.unique hright
  have hdrop : rs'.drop rs.length = [] :=
    requestStream_eq_nil (congrArg Source.incoming hrest).symm
  have htake : rs = rs'.take rs.length := List.map_injective_iff.mpr Subtype.val_injective hval
  calc rs = rs'.take rs.length := htake
    _ = rs'.take rs.length ++ rs'.drop rs.length := by rw [hdrop, List.append_nil]
    _ = rs' := List.take_append_drop _ _

/-- Requests come out of the stream as they went into it, with nothing left over, and no two lists
of them look the same on the wire. -/
theorem requests_roundtrip :
    (∀ rs : List SentRequest, (recvRequests rs.length).Gets (.full (requestStream rs))
      (rs.map Subtype.val) (.full [])) ∧ Function.Injective requestStream := by
  constructor
  · intro rs
    have h := gets_recvRequests rs []
    rwa [List.append_nil] at h
  · intro rs rs' h
    rcases Nat.le_total rs.length rs'.length with hle | hle
    · exact requestStream_inj_of_le hle h
    · exact (requestStream_inj_of_le hle h.symm).symm

/-! ### Short reads -/

theorem patient_recvField (size : Nat) : (recvField size).Patient :=
  (Reader.patient_read size).bind fun _ => Reader.patient_ret _

theorem patient_recvBuffer (size : Nat) : (recvBuffer size).Patient := by
  refine Reader.Patient.ite ?_ (Reader.patient_ret _)
  exact Reader.patient_alloc.bind fun _ =>
    (Reader.patient_read size).bind fun _ => Reader.patient_ret _

/-- The two fields of a buffer, and what comes after them. -/
theorem patient_buffer {α : Type} {g : Bytes → Reader UInt8 α} (hg : ∀ b, (g b).Patient) :
    ((recvField 8).bind fun size => (recvBuffer size).bind g).Patient :=
  (patient_recvField 8).bind fun size => (patient_recvBuffer size).bind hg

theorem patient_recvRequest : recvRequest.Patient := by
  refine Reader.patient_alloc.bind fun _ => (patient_recvField 4).bind fun type => ?_
  exact patient_buffer fun path => patient_buffer fun body => Reader.patient_ret _

theorem patient_recvResponse : recvResponse.Patient := by
  refine Reader.patient_alloc.bind fun _ => (patient_recvField 4).bind fun status => ?_
  refine (Reader.patient_read maxPath).bind fun phrase => ?_
  exact patient_buffer fun path => patient_buffer fun body => Reader.patient_ret _

theorem asks_recvField {size n : Nat} {s : Source UInt8}
    (h : (recvField size s).result = some n) : asks (recvField size s).calls = [size] := by
  obtain ⟨data, -, -, hasks⟩ := Reader.asks_bind h
  exact hasks

theorem length_read {count : Nat} {s : Source UInt8} {data : Bytes}
    (h : (Reader.read count s).result = some data) : data.length ≤ count := by
  have hd : s.delivers count = some data := h
  obtain ⟨most, -, rfl⟩ := Option.map_eq_some_iff.mp hd
  rw [List.length_take]
  omega

theorem asks_recvBuffer {size : Nat} {s : Source UInt8} {b : Bytes}
    (h : (recvBuffer size s).result = some b) :
    b.length = size ∧ asks (recvBuffer size s).calls = lengths (contentWrites b) := by
  unfold recvBuffer at h ⊢
  by_cases hs : size ≠ 0
  · rw [if_pos hs] at h ⊢
    obtain ⟨_, -, h, hasks⟩ := Reader.asks_bind h
    obtain ⟨data, hdata, h, hasks'⟩ := Reader.asks_bind h
    obtain rfl : data ++ List.replicate (size - data.length) 0 = b := Option.some.inj h
    have hle := length_read hdata
    have hlen : (data ++ List.replicate (size - data.length) 0).length = size := by
      rw [List.length_append, List.length_replicate]
      omega
    refine ⟨hlen, (hasks.trans (congrArg _ hasks')).trans ?_⟩
    rw [contentWrites, if_pos (hlen.symm ▸ hs)]
    show [size] = [(data ++ List.replicate (size - data.length) 0).length]
    rw [hlen]
  · rw [if_neg hs] at h ⊢
    obtain rfl : [] = b := Option.some.inj h
    exact ⟨(not_not.mp hs).symm, rfl⟩

theorem lengths_bufferWrites (b : Bytes) :
    lengths (bufferWrites b) = 8 :: lengths (contentWrites b) := by
  simp [bufferWrites, lengths]

theorem asks_buffer {α : Type} {g : Bytes → Reader UInt8 α} {s : Source UInt8} {a : α}
    (h : (((recvField 8).bind fun size => (recvBuffer size).bind g) s).result = some a) :
    ∃ b s', (g b s').result = some a ∧
      asks (((recvField 8).bind fun size => (recvBuffer size).bind g) s).calls =
        lengths (bufferWrites b) ++ asks (g b s').calls := by
  obtain ⟨size, hsize, h, hasks⟩ := Reader.asks_bind h
  obtain ⟨b, hb, h, hasks'⟩ := Reader.asks_bind h
  refine ⟨b, _, h, (hasks.trans (congrArg _ hasks')).trans ?_⟩
  rw [asks_recvField hsize, (asks_recvBuffer hb).2, lengths_bufferWrites]
  rfl

/-- What `recv_request` asks for is what `send_request` would write for its result. -/
theorem asks_recvRequest {r : Received} {s : Source UInt8} (h : (recvRequest s).result = some r) :
    asks (recvRequest s).calls = lengths (sendRequest r) := by
  obtain ⟨_, -, h, hasks⟩ := Reader.asks_bind h
  obtain ⟨type, htype, h, hasks1⟩ := Reader.asks_bind h
  obtain ⟨path, s2, h, hasks2⟩ := asks_buffer h
  obtain ⟨body, s3, h, hasks3⟩ := asks_buffer h
  obtain rfl : ⟨type, path, body⟩ = r := Option.some.inj h
  refine (hasks.trans (congrArg _ (hasks1.trans (congrArg _ (hasks2.trans
    (congrArg _ hasks3)))))).trans ?_
  rw [asks_recvField htype]
  show [4] ++ (lengths (bufferWrites path) ++ (lengths (bufferWrites body) ++ [])) = _
  simp [sendRequest, lengths]

theorem asks_recvResponse {r : ReceivedResponse} {s : Source UInt8}
    (h : (recvResponse s).result = some r) :
    asks (recvResponse s).calls = lengths (sendResponseWrites r) := by
  obtain ⟨_, -, h, hasks⟩ := Reader.asks_bind h
  obtain ⟨status, hstatus, h, hasks1⟩ := Reader.asks_bind h
  obtain ⟨data, hdata, h, hasks2⟩ := Reader.asks_bind h
  obtain ⟨path, s2, h, hasks3⟩ := asks_buffer h
  obtain ⟨body, s3, h, hasks4⟩ := asks_buffer h
  obtain rfl := Option.some.inj h
  have hle := length_read hdata
  have hlen : (data ++ List.replicate (maxPath - data.length) 0).length = maxPath := by
    rw [List.length_append, List.length_replicate]
    omega
  refine (hasks.trans (congrArg _ (hasks1.trans (congrArg _ (hasks2.trans (congrArg _
    (hasks3.trans (congrArg _ hasks4)))))))).trans ?_
  rw [asks_recvField hstatus]
  show [4] ++ ([maxPath] ++ (lengths (bufferWrites path) ++ (lengths (bufferWrites body) ++ []))) = _
  simp [sendResponseWrites, lengths, hle]

/-- The program takes `a` and nothing else off a stream that begins with `frame`, whatever its
reads deliver. -/
def Unmoved {α : Type} (x : Reader UInt8 α) (frame rest : Bytes) (mosts : List Nat) : Prop :=
  (x (.chopped (frame ++ rest) mosts)).result = (x (.full (frame ++ rest))).result ∧
    (x (.chopped (frame ++ rest) mosts)).source.incoming = rest

theorem unmoved_iff {α : Type} {x : Reader UInt8 α} (hx : x.Patient) {frame rest : Bytes}
    {writes : List Bytes} {a : α} (hframe : frame.length = (lengths writes).sum)
    (hfull : x.Gets (.full (frame ++ rest)) a (.full rest))
    (hasks : ∀ s, (x s).result = some a → asks (x s).calls = lengths writes) (mosts : List Nat) :
    Unmoved x frame rest mosts ↔ Uncut (lengths writes) mosts := by
  have hlen : (frame ++ rest).length = rest.length + (lengths writes).sum := by
    rw [List.length_append, hframe, Nat.add_comm]
  constructor
  · rintro ⟨hresult, hrest⟩
    rw [hfull.1] at hresult
    have htraced := hx.traced (.chopped (frame ++ rest) mosts)
    rw [← hasks _ hresult] at hlen ⊢
    refine htraced.uncut rfl ?_
    rw [hrest]
    exact hlen
  · intro hu
    rw [← hasks _ hfull.1] at hlen hu
    obtain ⟨hresult, hsource⟩ := hx.gets _ _ a mosts hfull hlen hu
    exact ⟨hresult.trans hfull.1.symm, congrArg Source.incoming hsource⟩

theorem sum_lengths (writes : List Bytes) : (lengths writes).sum = writes.flatten.length :=
  List.length_flatten.symm

/-- Short reads are not repeated: a frame comes out of a stream that is cut into pieces exactly
when each field comes in one. -/
theorem unmoved_iff_uncut (rest : Bytes) (mosts : List Nat) :
    (∀ r : SentRequest,
      Unmoved recvRequest r.frame rest mosts ↔ Uncut (lengths (sendRequest r.val)) mosts) ∧
    ∀ r : SentResponse,
      Unmoved recvResponse r.frame rest mosts ↔ Uncut (lengths (sendResponseWrites r.val)) mosts := by
  constructor
  · intro r
    exact unmoved_iff patient_recvRequest (sum_lengths _).symm (gets_recvRequest r rest)
      (fun _ => asks_recvRequest) mosts
  · intro r
    exact unmoved_iff patient_recvResponse (sum_lengths _).symm (gets_recvResponse r rest)
      (fun _ => asks_recvResponse) mosts

/-- The second byte of a body that comes in two pieces is left for the next request. -/
theorem not_unmoved_two_pieces :
    ¬ Unmoved recvRequest
      (SentRequest.frame ⟨⟨104, stringBytes (slash 'a'), [1, 2]⟩, by decide, by decide, by decide⟩)
      [] [4, 8, 3, 8, 1] := by
  unfold Unmoved
  decide

end FileStorage

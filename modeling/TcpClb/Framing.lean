import TcpClb.Wire

/-!
# The framing of messages

`send_worker_thread` writes a message as four decimal digits for its length, followed by that many
bytes; `receive_from_fd` reads the digits back and takes the length from them. Both ends agree as
long as four digits are enough, and the worker gets to the body only if it can print the message.
-/

namespace TcpClb

open TcpClb.Common

/-- Header and body of one message on the wire. -/
def frame (body : List Char) : List Char := lengthHeader body.length ++ body

/-- The part of `send_worker_thread` between the pop and the frees, on a connection that stays the
same: the bytes accepted. The header with its terminator has to fit `msglen`, and between header and
body `syslog` prints `req_buf`. -/
def sendNode (node : Msgque) (results : List SendResult) : Option (List Char × List SendResult) :=
  let msglen := lengthHeader node.len
  if msglen.length < msglenSize then do
    let header ← sendToFd msglen msglen.length results
    if node.data.Printable then do
      let body ← sendToFd node.data.readable node.len header.2.2
      some (header.1 ++ body.1, body.2.2)
    else none
  else none

/-- The messages a worker pops one after the other, and what it has written for them. -/
def sendNodes : List Msgque → List SendResult → Option (List Char × List SendResult)
  | [], results => some ([], results)
  | node :: nodes, results => do
    let first ← sendNode node results
    let others ← sendNodes nodes first.2
    some (first.1 ++ others.1, others.2)

/-- A request that `push_to_msgq` queues, and whose buffer has the bytes that its length says. More may
follow them in the block, such as a terminator. -/
structure SizedRequest extends Request where
  named : id.chars ≠ []
  nonneg : 0 ≤ msgLen
  sized : msgLen ≤ toRequest.readable.length

/-- The bytes to be sent. -/
def SizedRequest.body (req : SizedRequest) : List Char := req.readable.take req.msgLen.toNat

/-- The node that `push_to_msgq` links in for a request. -/
def Request.toMsgque (req : Request) (con : ℤ) : Msgque := ⟨req, req.id.chars, req.msgLen, con⟩

/-- The bytes of all messages together. -/
def streamOf (reqs : List SizedRequest) : List Char := reqs.flatMap fun req => frame req.body

/-- The number of calls of `send` that accept something. -/
def acceptingCalls (results : List SendResult) : ℕ :=
  results.countP fun r => match r with
    | .sent _ => true
    | .failed _ => false

/-- What is written for the requests reads back as they are, whatever counts `send` accepts, if
`recv` gives every call what it asks for; and no header overflows its buffer. -/
structure RoundTrips (con : ℤ) (reqs : List SizedRequest) : Prop where
  fits : ∀ req ∈ reqs, (lengthHeader req.msgLen).length < msglenSize
  readBack : ∀ results, (∀ r ∈ results, r.Harmless) → (streamOf reqs).length ≤ acceptingCalls results →
    ∃ stream left, sendNodes (reqs.map fun req => req.toMsgque con) results = some (stream, left) ∧
      ∀ errno, receiveTimes reqs.length (leaveOver stream errno []) =
        some (reqs.map fun req => ⟨some req.body, some req.msgLen⟩, [])

/-- A length is the number of bytes to be sent. -/
theorem SizedRequest.length_body (req : SizedRequest) : (req.body.length : ℤ) = req.msgLen := by
  have hnonneg := req.nonneg
  have hsized := req.sized
  rw [SizedRequest.body, List.length_take]
  omega

/-- The header of a length has four digits exactly if the length is at most 9999. -/
theorem length_lengthHeader_eq_iff (n : ℕ) : (lengthHeader n).length = headerSize ↔ n ≤ 9999 := by
  rw [lengthHeader, length_printPadded_eq_iff headerSize n (by decide)]
  change n < 10000 ↔ n ≤ 9999
  omega

/-- It fits its buffer exactly then. -/
theorem length_lengthHeader_lt_iff (n : ℕ) : (lengthHeader n).length < msglenSize ↔ n ≤ 9999 := by
  have hle : headerSize ≤ (lengthHeader n).length := le_length_printPadded headerSize n
  rw [← length_lengthHeader_eq_iff, msglenSize]
  rw [headerSize] at hle ⊢
  omega

/-- Without failures, and with enough calls to come, the loop sends everything. -/
theorem sendLoop_of_harmless (rest : List Char) (results : List SendResult)
    (hall : ∀ r ∈ results, r.Harmless) (henough : rest.length ≤ acceptingCalls results) :
    ∃ left, sendLoop rest results = some (rest, false, left) ∧ (∀ r ∈ left, r.Harmless) ∧
      acceptingCalls results ≤ acceptingCalls left + rest.length := by
  induction results generalizing rest with
  | nil =>
    obtain rfl : rest = [] := List.eq_nil_of_length_eq_zero (Nat.le_zero.mp henough)
    exact ⟨[], rfl, hall, Nat.le_refl _⟩
  | cons r results ih =>
    cases rest with
    | nil => exact ⟨r :: results, rfl, hall, Nat.le_refl _⟩
    | cons b rest =>
      have hr := hall r List.mem_cons_self
      have htail := fun x hx => hall x (List.mem_cons_of_mem r hx)
      cases r with
      | sent count =>
        have hcount : acceptingCalls (.sent count :: results) = acceptingCalls results + 1 :=
          List.countP_cons_of_pos rfl
        have hpos : 0 < count := Nat.pos_of_ne_zero hr
        have hdrop : ((b :: rest).drop count).length < (b :: rest).length := by
          rw [List.length_drop, List.length_cons]
          omega
        obtain ⟨left, hleft, hharmless, hused⟩ := ih ((b :: rest).drop count) htail (by omega)
        refine ⟨left, ?_, hharmless, by omega⟩
        simp only [sendLoop, sendOnce, if_neg hr, hleft, Option.map_some, SendResult.accepted,
          List.take_append_drop]
      | failed errno =>
        have hcount : acceptingCalls (.failed errno :: results) = acceptingCalls results :=
          List.countP_cons_of_neg Bool.false_ne_true
        obtain ⟨left, hleft, hharmless, hused⟩ := ih (b :: rest) htail (by omega)
        refine ⟨left, ?_, hharmless, by omega⟩
        have hblock : errno.wouldBlock = true := hr
        simp only [sendLoop, sendOnce, if_pos hblock, hleft, Option.map_some, SendResult.accepted,
          List.nil_append]

/-- A buffer that is sent whole is sent by the loop. -/
theorem sendToFd_length (buf : List Char) (results : List SendResult) :
    sendToFd buf buf.length results = sendLoop buf results := by
  rw [sendToFd, if_pos (Int.le_refl _), Int.toNat_natCast, List.take_length]

/-- So is the body of a request. -/
theorem sendToFd_body (req : SizedRequest) (results : List SendResult) :
    sendToFd req.readable req.msgLen results = sendLoop req.body results := by
  rw [sendToFd, if_pos req.sized]
  rfl

/-- Without failures a message of at most 9999 bytes that can be printed is written as its frame. -/
theorem sendNode_of_harmless (con : ℤ) (req : SizedRequest) (results : List SendResult)
    (hlen : req.msgLen ≤ 9999) (hprint : req.Printable) (hall : ∀ r ∈ results, r.Harmless)
    (henough : (frame req.body).length ≤ acceptingCalls results) :
    ∃ left, sendNode (req.toMsgque con) results = some (frame req.body, left) ∧
      (∀ r ∈ left, r.Harmless) ∧
      acceptingCalls results ≤ acceptingCalls left + (frame req.body).length := by
  rw [frame, List.length_append] at henough ⊢
  obtain ⟨middle, hheader, hmiddle, hused⟩ := sendLoop_of_harmless (lengthHeader req.body.length)
    results hall (by omega)
  obtain ⟨left, hbody, hleft, hused'⟩ := sendLoop_of_harmless req.body middle hmiddle (by omega)
  refine ⟨left, ?_, hleft, by omega⟩
  have hfits : (lengthHeader req.msgLen).length < msglenSize := by
    rw [← req.length_body] at hlen ⊢
    exact (length_lengthHeader_lt_iff _).mpr (by omega)
  rw [req.length_body] at hheader ⊢
  simp only [sendNode, Request.toMsgque, if_pos hfits, sendToFd_length, sendToFd_body, hheader, hbody,
    if_pos hprint, Option.bind_eq_bind, Option.bind_some]

/-- A message that is written has been printed. -/
theorem printable_of_sendNode {node : Msgque} {results left : List SendResult} {bytes : List Char}
    (hsent : sendNode node results = some (bytes, left)) : node.data.Printable := by
  obtain ⟨_, hsent⟩ := Option.ite_none_right_eq_some.mp hsent
  obtain ⟨header, _, hsent⟩ := Option.bind_eq_some_iff.mp hsent
  exact (Option.ite_none_right_eq_some.mp hsent).1

/-- So have all messages. -/
theorem printable_of_sendNodes {nodes : List Msgque} {results left : List SendResult} {bytes : List Char}
    (hsent : sendNodes nodes results = some (bytes, left)) : ∀ node ∈ nodes, node.data.Printable := by
  induction nodes generalizing results left bytes with
  | nil => exact fun _ h => absurd h List.not_mem_nil
  | cons node nodes ih =>
    obtain ⟨first, hfirst, hsent⟩ := Option.bind_eq_some_iff.mp hsent
    obtain ⟨others, hothers, _⟩ := Option.bind_eq_some_iff.mp hsent
    exact List.forall_mem_cons.mpr ⟨printable_of_sendNode hfirst, ih hothers⟩

/-- Without failures all messages are written as the stream of their frames. -/
theorem sendNodes_of_harmless (con : ℤ) (reqs : List SizedRequest) (results : List SendResult)
    (hall : ∀ req ∈ reqs, req.msgLen ≤ 9999 ∧ req.Printable) (hharmless : ∀ r ∈ results, r.Harmless)
    (henough : (streamOf reqs).length ≤ acceptingCalls results) :
    ∃ left, sendNodes (reqs.map fun req => req.toMsgque con) results = some (streamOf reqs, left) := by
  induction reqs generalizing results with
  | nil => exact ⟨results, rfl⟩
  | cons req reqs ih =>
    obtain ⟨⟨hlen, hprint⟩, hrest⟩ := List.forall_mem_cons.mp hall
    rw [streamOf, List.flatMap_cons, List.length_append] at henough
    obtain ⟨middle, hfirst, hmiddle, hused⟩ := sendNode_of_harmless con req results hlen hprint hharmless
      (by omega)
    obtain ⟨left, hothers⟩ := ih middle hrest hmiddle (by rw [streamOf]; omega)
    refine ⟨left, ?_⟩
    simp only [List.map_cons, sendNodes, hfirst, hothers, Option.bind_eq_bind, Option.bind_some, streamOf,
      List.flatMap_cons]

/-- Bytes that are all there are read by one call. -/
theorem readHeader_whole (header more : List Char) (errno : Errno) (hheader : header.length = headerSize) :
    readHeader [] (leaveOver (header ++ more) errno []) = some (some header, leaveOver more errno []) := by
  have hne : header ++ more ≠ [] := by
    apply List.append_ne_nil_of_left_ne_nil
    exact List.ne_nil_of_length_pos (by rw [hheader]; decide)
  have htake : (header ++ more).take headerSize = header := hheader ▸ List.take_left
  have hdrop : (header ++ more).drop headerSize = more := hheader ▸ List.drop_left
  simp only [leaveOver, if_neg hne, readHeader, List.length_nil, Nat.sub_zero, htake, hdrop, hheader,
    if_true, List.nil_append]

/-- A buffer that is full takes no call. -/
theorem readBody_full (received : ℕ) (results : List RecvResult) (readBuf : List Char)
    (hfull : readBuf.length = received) :
    readBody received readBuf results = some (some readBuf, results) := by
  cases results with
  | nil => rw [readBody, if_neg (by omega)]
  | cons r results => cases r <;> rw [readBody, if_neg (by omega)]

/-- The same for a body, which takes no call if it is empty. -/
theorem readBody_whole (body more : List Char) (errno : Errno) :
    readBody body.length [] (leaveOver (body ++ more) errno []) =
      some (some body, leaveOver more errno []) := by
  by_cases hbody : body = []
  · subst hbody
    exact readBody_full 0 (leaveOver more errno []) [] rfl
  · have hne : body ++ more ≠ [] := List.append_ne_nil_of_left_ne_nil hbody more
    have hpos : 0 < body.length := List.length_pos_iff.mpr hbody
    have hall : ¬ (body ++ more).length < body.length := by
      rw [List.length_append]
      omega
    simp only [leaveOver, if_neg hne, readBody, List.length_nil, Nat.sub_zero, if_pos hpos, if_neg hall,
      List.take_left, List.drop_left, List.nil_append]

/-- A frame that is all there is read as its body. -/
theorem receiveFromFd_whole (body more : List Char) (errno : Errno) (hlen : body.length ≤ 9999) :
    receiveFromFd (leaveOver (frame body ++ more) errno []) =
      some (⟨some body, some body.length⟩, leaveOver more errno []) := by
  have hheader := readHeader_whole (lengthHeader body.length) (body ++ more) errno
    ((length_lengthHeader_eq_iff _).mpr hlen)
  rw [frame, List.append_assoc, receiveFromFd, hheader]
  simp only [Option.bind_eq_bind, Option.bind_some, lengthHeader, atoi_printPadded,
    if_neg (show ¬ (body.length : ℤ) + 1 < 0 by omega), Int.toNat_natCast, readBody_whole]

/-- A stream of frames that is all there is read as the bodies. -/
theorem receiveTimes_whole (reqs : List SizedRequest) (errno : Errno) (hlen : ∀ req ∈ reqs, req.msgLen ≤ 9999) :
    receiveTimes reqs.length (leaveOver (streamOf reqs) errno []) =
      some (reqs.map fun req => ⟨some req.body, some req.msgLen⟩, []) := by
  induction reqs with
  | nil => rfl
  | cons req reqs ih =>
    obtain ⟨hshort, hrest⟩ := List.forall_mem_cons.mp hlen
    have hbody := req.length_body
    have hfirst := receiveFromFd_whole req.body (streamOf reqs) errno (by omega)
    have hothers := ih hrest
    rw [streamOf, List.flatMap_cons, List.length_cons, receiveTimes]
    rw [streamOf] at hfirst hothers
    simp only [hfirst, hothers, Option.bind_eq_bind, Option.bind_some, List.map_cons, hbody]

/-- `send` takes all it is offered in each of enough calls. -/
theorem exists_harmless (n : ℕ) : ∃ results : List SendResult,
    (∀ r ∈ results, r.Harmless) ∧ n ≤ acceptingCalls results := by
  refine ⟨List.replicate n (.sent 1), fun r hr => ?_, ?_⟩
  · rw [List.eq_of_mem_replicate hr]
    exact Nat.one_ne_zero
  · rw [acceptingCalls, List.countP_replicate, if_pos rfl]

/-- In a round trip every message is printed. -/
theorem RoundTrips.printable {con : ℤ} {reqs : List SizedRequest} (htrips : RoundTrips con reqs) :
    ∀ req ∈ reqs, req.Printable := by
  intro req hreq
  obtain ⟨results, hharmless, henough⟩ := exists_harmless (streamOf reqs).length
  obtain ⟨stream, left, hsent, _⟩ := htrips.readBack results hharmless henough
  exact printable_of_sendNodes hsent _ (List.mem_map_of_mem hreq)

/-- The round trip succeeds exactly if no message is longer than 9999 bytes and every message can be
printed. -/
theorem roundTrips_iff (con : ℤ) (reqs : List SizedRequest) :
    RoundTrips con reqs ↔ ∀ req ∈ reqs, req.msgLen ≤ 9999 ∧ req.Printable := by
  have hfits (req : SizedRequest) : (lengthHeader req.msgLen).length < msglenSize ↔ req.msgLen ≤ 9999 := by
    rw [← req.length_body, length_lengthHeader_lt_iff]
    omega
  constructor
  · intro htrips req hreq
    exact ⟨(hfits req).mp (htrips.fits req hreq), htrips.printable req hreq⟩
  · intro hall
    refine ⟨fun req hreq => (hfits req).mpr (hall req hreq).1, fun results hharmless henough => ?_⟩
    obtain ⟨left, hsent⟩ := sendNodes_of_harmless con reqs results hall hharmless henough
    exact ⟨streamOf reqs, left, hsent, fun errno => receiveTimes_whole reqs errno fun req hreq => (hall req hreq).1⟩

/-- A request with 10000 bytes and a terminator. -/
def longRequest : SizedRequest where
  reqBuf := some (List.replicate 10000 'x' ++ ['\x00'])
  msgLen := 10000
  pickedUp := 0
  noTransaction := 0
  id := oneCharId 'l'
  named := List.cons_ne_nil _ _
  nonneg := by omega
  sized := by
    change (10000 : ℤ) ≤ (List.replicate 10000 'x' ++ ['\x00']).length
    rw [List.length_append, List.length_replicate]
    exact Int.ofNat_le.mpr (Nat.le_add_right 10000 1)

/-- Its header does not fit `msglen`. -/
theorem longRequest_not_roundTrips : ¬ RoundTrips 0 [longRequest] := by
  intro htrips
  have hfits : (lengthHeader 10000).length < msglenSize := htrips.fits longRequest List.mem_cons_self
  exact absurd hfits (by decide)

/-- A request of one byte, with no terminator behind it. -/
def unterminatedRequest : SizedRequest where
  reqBuf := some ['x']
  msgLen := 1
  pickedUp := 0
  noTransaction := 0
  id := oneCharId 'u'
  named := List.cons_ne_nil _ _
  nonneg := Int.one_nonneg
  sized := Int.le_refl 1

/-- Between its header and its body `syslog` reads on behind the block. -/
theorem unterminatedRequest_not_roundTrips : ¬ RoundTrips 0 [unterminatedRequest] := by
  intro htrips
  exact absurd (htrips.printable unterminatedRequest List.mem_cons_self) (by decide)

end TcpClb

import TcpClb.Common.CText
import TcpClb.Records

/-!
# Sending and receiving on a descriptor

`send_to_fd` and `receive_from_fd` of `work.c`. What the kernel does is an input: a list with the
results of the calls of `send` or `recv` to come. A function is undefined when it needs more
results than the list has, which says that it is still waiting.

`errno` is part of every result that leaves it visible: a successful `recv` does not set it, so it
may have any value that an earlier call has left.
-/

namespace TcpClb

open TcpClb.Common

/-- The values of `errno` that the code tells apart. -/
inductive Errno
  | eagain
  | ewouldblock
  | eintr
  | other (code : ℕ)
  deriving DecidableEq

/-- `errno == EAGAIN || errno == EWOULDBLOCK`. -/
def Errno.wouldBlock : Errno → Bool
  | .eagain | .ewouldblock => true
  | _ => false

/-- `errno == EWOULDBLOCK || errno == EAGAIN || errno == EINTR`. -/
def Errno.retry (e : Errno) : Bool := e.wouldBlock || e == .eintr

/-- What `send` returns: how many bytes it accepted, or -1. -/
inductive SendResult
  | sent (count : ℕ)
  | failed (errno : Errno)
  deriving DecidableEq

/-- The result neither is an error that ends the transfer nor is 0. -/
def SendResult.Harmless : SendResult → Prop
  | .sent count => count ≠ 0
  | .failed errno => errno.wouldBlock = true

/-- The bytes that a call of `send` has accepted, when it was offered `rest`. -/
def SendResult.accepted (rest : List Char) : SendResult → List Char
  | .sent count => rest.take count
  | .failed _ => []

/-- One round of the loop of `send_to_fd`: the bytes left to send, `none` for `return -1`. -/
def sendOnce (rest : List Char) : SendResult → Option (List Char)
  | .sent count => if count = 0 then none else some (rest.drop count)
  | .failed errno => if errno.wouldBlock then some rest else none

/-- The loop of `send_to_fd`: the bytes accepted, whether it returned -1, and the unused results. -/
def sendLoop : List Char → List SendResult → Option (List Char × Bool × List SendResult)
  | [], results => some ([], false, results)
  | _ :: _, [] => none
  | b :: rest, r :: results =>
    match sendOnce (b :: rest) r with
    | none => some ([], true, results)
    | some left => (sendLoop left results).map fun sent => (r.accepted (b :: rest) ++ sent.1, sent.2)

/-- `send_to_fd`, whose buffer has to hold `len` bytes. -/
def sendToFd (buf : List Char) (len : ℤ) (results : List SendResult) :
    Option (List Char × Bool × List SendResult) :=
  if len ≤ buf.length then sendLoop (buf.take len.toNat) results else none

/-- What `recv` gives: bytes that have arrived, of which a call takes no more than it asks for and
leaves the rest for the next call, or -1. No bytes are the end of the stream. -/
inductive RecvResult
  | arrived (bytes : List Char) (errno : Errno)
  | failed (errno : Errno)
  deriving DecidableEq

/-- The first results of a sequence that has no end. -/
def firstResults {R : Type} (r : ℕ → R) (n : ℕ) : List R := (List.range n).map r

/-- What a call of `recv` has not taken of the bytes that arrived together. -/
def leaveOver (bytes : List Char) (errno : Errno) (results : List RecvResult) : List RecvResult :=
  if bytes = [] then results else .arrived bytes errno :: results

/-- Bytes of the length header. -/
def headerSize : ℕ := 4

/-- The part of `receive_from_fd` from `again` on that fills `lenbuf`; `none` inside for the end of
the stream. -/
def readHeader (lenbuf : List Char) : List RecvResult → Option (Option (List Char) × List RecvResult)
  | [] => none
  | .failed errno :: results =>
    if errno.retry then readHeader lenbuf results else some (some lenbuf, results)
  | .arrived bytes errno :: results =>
    if bytes = [] then some (none, results)
    else
      let totalSize := headerSize - lenbuf.length
      let readBytes := bytes.take totalSize
      if readBytes.length = totalSize then
        some (some (lenbuf ++ readBytes), leaveOver (bytes.drop totalSize) errno results)
      else if errno.retry then readHeader (lenbuf ++ readBytes) results
      -- a short count with any other `errno` falls through to `atoi`
      else some (some (lenbuf ++ readBytes), results)

/-- The loop that fills `read_buf`, which tries again after every error. -/
def readBody (received : ℕ) (readBuf : List Char) :
    List RecvResult → Option (Option (List Char) × List RecvResult)
  | [] => if readBuf.length < received then none else some (some readBuf, [])
  | .failed errno :: results =>
    if readBuf.length < received then readBody received readBuf results
    else some (some readBuf, .failed errno :: results)
  | .arrived bytes errno :: results =>
    if readBuf.length < received then
      if bytes = [] then some (none, results)
      else if bytes.length < received - readBuf.length then readBody received (readBuf ++ bytes) results
      else some (some (readBuf ++ bytes.take (received - readBuf.length)),
        leaveOver (bytes.drop (received - readBuf.length)) errno results)
    else some (some readBuf, .arrived bytes errno :: results)

/-- What `receive_from_fd` returns, `none` for `NULL`, and what it stores in `*ret`, if anything. -/
structure Received where
  message : Option (List Char)
  ret : Option ℤ
  deriving DecidableEq

/-- The return after an end of stream, which leaves `*ret` as it was. -/
def Received.endOfStream : Received := ⟨none, none⟩

/-- `receive_from_fd`. The `calloc` of a negative size fails. -/
def receiveFromFd (results : List RecvResult) : Option (Received × List RecvResult) := do
  let header ← readHeader [] results
  match header.1 with
  | none => some (.endOfStream, header.2)
  | some lenbuf =>
    let received := atoi lenbuf
    if received + 1 < 0 then some (⟨none, some received⟩, header.2)
    else do
      let body ← readBody received.toNat [] header.2
      match body.1 with
      | none => some (.endOfStream, body.2)
      | some readBuf => some (⟨some readBuf, some received⟩, body.2)

/-- Call `receive_from_fd` a number of times. -/
def receiveTimes : ℕ → List RecvResult → Option (List Received × List RecvResult)
  | 0, results => some ([], results)
  | n + 1, results => do
    let first ← receiveFromFd results
    let others ← receiveTimes n first.2
    some (first.1 :: others.1, others.2)

/-- The text that `sprintf(msglen, "%04d", len)` writes, without its terminator. -/
def lengthHeader (len : ℤ) : List Char := printPadded headerSize len

/-- `char msglen[5]`. -/
def msglenSize : ℕ := 5

end TcpClb

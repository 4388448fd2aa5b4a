import Mathlib.Data.Int.Notation
import Mathlib.Data.List.Basic

/-!
# Records shared by the tasks and the workers

The structures of `module.h` and `task.h`, without the link fields of the two queues. A C `int`
is an integer, a buffer is a list of characters, and a callback, or its parameter, is a value of an
arbitrary type. What a caller's pointer leads to matters where `syslog` prints it with `%s`.
-/

namespace TcpClb

/-- `KEY_SIZE`: bytes in a transaction id field, terminator included. -/
def keySize : ℕ := 256

/-- `EXPIRY`: seconds after which a registered id counts as expired. -/
def expiry : ℤ := 30

/-- Contents of a `char` array that holds a terminated string: the terminator fits as well. -/
structure CString (size : ℕ) where
  chars : List Char
  fits : chars.length < size
  deriving DecidableEq

/-- The transaction id of one character. -/
def oneCharId (c : Char) : CString keySize := ⟨[c], by change 1 < 256; decide⟩

/-- `struct timeval`. -/
structure Timeval where
  tvSec : ℤ
  tvUsec : ℤ
  deriving DecidableEq

/-- `con_t`: the connection to one peer. -/
structure Con where
  fd : ℤ
  state : ℤ
  peerId : ℤ
  deriving DecidableEq

/-- `request_t`. Of `req_buf`, unless it is `NULL`, the bytes to the end of its block. -/
structure Request where
  reqBuf : Option (List Char)
  msgLen : ℤ
  pickedUp : ℤ
  noTransaction : ℤ
  id : CString keySize
  deriving DecidableEq

/-- The bytes that can be read at `req_buf`. -/
def Request.readable (req : Request) : List Char := req.reqBuf.getD []

/-- `req_buf` can be printed with `%s`: it is `NULL`, or a terminator stands in its block. -/
def Request.Printable (req : Request) : Prop := ∀ bytes ∈ req.reqBuf, '\x00' ∈ bytes

instance (req : Request) : Decidable req.Printable :=
  inferInstanceAs (Decidable (∀ bytes ∈ req.reqBuf, '\x00' ∈ bytes))

/-- `end_peers`: the configured address of one peer. -/
structure EndPeers where
  port : ℤ
  ip : List Char
  deriving DecidableEq

/-- `configurator`; `num_peers` is the length of the peer array. -/
structure Configurator where
  numWorkerThreads : ℤ
  peers : List EndPeers
  deriving DecidableEq

/-- `tsidque_t`: the registration of one transaction id. -/
structure Tsidque (F P : Type) where
  id : List Char
  conn : ℤ
  isExpired : Bool
  aTime : Timeval
  eTime : Timeval
  callbackF : F
  callbackParam : P
  deriving DecidableEq

/-- `msgque_t`: a queued message and the connection it is to be sent on. -/
structure Msgque where
  data : Request
  id : List Char
  len : ℤ
  conn : ℤ
  deriving DecidableEq

end TcpClb

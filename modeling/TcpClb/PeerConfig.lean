import Mathlib.Algebra.Order.Ring.Int
import Mathlib.Data.List.Infix
import TcpClb.Common.CText
import TcpClb.Common.Tokens

/-!
# The configuration file

How `main` of `stub.c` reads `tcp_clb.cfg`, with the checks of `utils.c`. Memory from `malloc` holds anything
until it is written. The array of peers is a table without end, and beside it stand the number of entries it
was allocated for and every index at which an entry was stored, so that stores past its end can be seen.

Reading stops when `invalid()` is called, or with a crash where a null pointer is followed. A character is
one byte.
-/

namespace TcpClb

open TcpClb.Common

/-- How reading stops before `mod_init` is reached. -/
inductive Stop
  | invalid
  | crash
  deriving DecidableEq

/-- An entry of the array of peers: `port` and the bytes of `ip[16]`. -/
structure PeerBytes where
  port : ℤ
  ip : List Char
  size : ip.length = 16

/-- What memory from `malloc` holds: `*config`, and the arrays of peers one after the other. -/
structure FreshMemory where
  numWorkerThreads : ℤ
  numPeers : ℤ
  peers : ℕ → ℕ → PeerBytes

/-- The variables of `main`: `*config`, the entries that `config->peers` was allocated for, how often it was
allocated, `i`, every index stored at with the number of entries there were then, and the endpoints read. -/
structure StubConfig where
  numWorkerThreads : ℤ
  numPeers : ℤ
  peers : ℕ → PeerBytes
  allocated : ℕ
  mallocs : ℕ
  i : ℕ
  stores : List (ℕ × ℕ)
  endpoints : List (List Char)

/-- The texts that calls of `fgets(buf, size, fptr)` read one after the other, the first of which has read
`cur` already. -/
def fgetsFrom (size : ℕ) (cur : List Char) : List Char → List (List Char)
  | [] => if cur.isEmpty then [] else [cur]
  | c :: rest =>
    if c = '\n' ∨ cur.length + 2 = size then (cur ++ [c]) :: fgetsFrom size [] rest
    else fgetsFrom size (cur ++ [c]) rest

/-- The lines that `main` reads, as strings in `buf[1024]`. -/
def configLines (content : List Char) : List (List Char) := (fgetsFrom 1024 [] content).map cString

/-- `chkSubStr`. -/
def chkSubStr (base srch : List Char) : Bool := decide (srch <:+: base)

/-- `chkCnt`. -/
def chkCnt (base : List Char) (ch : Char) : ℕ := base.count ch

/-- `validate_number`. -/
def validateNumber (str : List Char) : Bool := str.all Char.isDigit

/-- `chkIP`; the number of dots is counted as the tokens behind the first. -/
def chkIP (ip : List Char) : Bool :=
  match tokens (· == '.') ip with
  | [] => false
  | ptr :: rest =>
    (ptr :: rest).all (fun tok => validateNumber tok && decide (0 ≤ atoiInt tok ∧ atoiInt tok ≤ 255)) &&
      rest.length == 3

/-- `chkPort`. -/
def chkPort (port : ℤ) : Bool := decide (0 ≤ port ∧ port ≤ 65535)

/-- `chkWT`. -/
def chkWT (val : ℤ) : Bool := decide (0 ≤ val ∧ val ≤ 32)

/-- `validateIpPort`: the address and the port that it stores. The address has been copied to the entry before
`chkIP` looks at it, so one that is rejected may have been written past `ip[16]`, which is left out here. -/
def validateIpPort (endpt : List Char) : Except Stop (List Char × ℤ) :=
  match strtok (· == ':') endpt with
  | none => .error .crash
  | some (ip, rest) =>
    if chkIP ip then
      match strtok (· == ':') rest with
      | none => .error .crash
      | some (tok, _) => if chkPort (atoiInt tok) then .ok (ip, atoiInt tok) else .error .invalid
    else .error .invalid

/-- `strcpy(p->ip, tok)` and `p->port = port`. What does not fit into `ip` is left out here: it goes to
the entry behind, which is stored later, or past the array. -/
def PeerBytes.store (p : PeerBytes) (tok : List Char) (port : ℤ) : PeerBytes where
  port := port
  ip := (tok ++ ['\x00']).take 16 ++ p.ip.drop (tok.length + 1)
  size := by
    have hsize := p.size
    simp only [List.length_append, List.length_take, List.length_drop, List.length_singleton]
    omega

/-- The entry holds an address, as a string inside `ip`, and a port. -/
def PeerBytes.Holds (p : PeerBytes) (ip : List Char) (port : ℤ) : Prop :=
  ip ++ ['\x00'] <+: p.ip ∧ p.port = port

/-- The variables when `main` starts to read. -/
def StubConfig.initial (fresh : FreshMemory) : StubConfig where
  numWorkerThreads := fresh.numWorkerThreads
  numPeers := fresh.numPeers
  peers := fresh.peers 0
  allocated := 0
  mallocs := 0
  i := 0
  stores := []
  endpoints := []

/-- `config->peers` is allocated for one entry more than there are commas. -/
def StubConfig.allocate (fresh : FreshMemory) (s : StubConfig) (commas : ℕ) : StubConfig :=
  { s with
    numPeers := commas + 1
    peers := fresh.peers s.mallocs
    allocated := commas + 1
    mallocs := s.mallocs + 1 }

/-- An endpoint is stored in `config->peers[i]`, and `i` is incremented. -/
def StubConfig.storePeer (s : StubConfig) (endpt ip : List Char) (port : ℤ) : StubConfig :=
  { s with
    peers := Function.update s.peers s.i ((s.peers s.i).store ip port)
    i := s.i + 1
    stores := s.stores ++ [(s.i, s.allocated)]
    endpoints := s.endpoints ++ [endpt] }

/-- The tokens of what stands behind the first token of a `GW` line: the first of them ends at `=` or a comma, the
others at commas. -/
def valueTokens (afterKey : List Char) : List (List Char) :=
  match strtok (fun c => c == '=' || c == ',') afterKey with
  | none => []
  | some (token, rest) => token :: tokens (· == ',') rest

/-- The tokens that the loop over a `GW` line goes through. -/
def gwTokens (buf : List Char) : List (List Char) :=
  match strtok (· == '=') buf with
  | none => []
  | some (_, afterKey) => valueTokens afterKey

/-- One round of the loop over a `GW` line. -/
def StubConfig.readPeer (s : StubConfig) (token : List Char) : Except Stop StubConfig :=
  if chkCnt token ':' ≠ 1 then .error .invalid
  else (validateIpPort token).map fun peer => s.storePeer token peer.1 peer.2

/-- A line with `GW`. -/
def StubConfig.readGW (fresh : FreshMemory) (s : StubConfig) (buf : List Char) : Except Stop StubConfig :=
  if chkCnt buf '=' ≠ 1 then .error .invalid
  else (gwTokens buf).foldlM StubConfig.readPeer (s.allocate fresh (chkCnt buf ','))

/-- A line with `WT`. -/
def StubConfig.readWT (s : StubConfig) (buf : List Char) : Except Stop StubConfig :=
  if chkCnt buf '=' ≠ 1 then .error .invalid
  else match strtok (· == '=') buf with
    | none => .error .crash
    | some (_, rest) =>
      match strtok (· == '=') rest with
      | none => .error .crash
      | some (token, _) =>
        if chkWT (atoiInt token) then .ok { s with numWorkerThreads := atoiInt token } else .error .invalid

/-- One round of the loop over the lines. -/
def StubConfig.readLine (fresh : FreshMemory) (s : StubConfig) (buf : List Char) : Except Stop StubConfig :=
  if chkSubStr buf ['G', 'W'] then s.readGW fresh buf
  else if chkSubStr buf ['W', 'T'] then s.readWT buf
  else .ok s

/-- `main` up to `mod_init`. -/
def stubMain (fresh : FreshMemory) (content : List Char) : Except Stop StubConfig :=
  (configLines content).foldlM (StubConfig.readLine fresh) (StubConfig.initial fresh)

/-- `main` reaches `mod_init`. -/
def Accepted (content : List Char) : Prop := ∃ fresh s, stubMain fresh content = .ok s

/-- As many peers are configured as endpoints were read, every entry was stored inside the array, and each of
them holds the endpoint at its place. -/
structure StubConfig.Complete (s : StubConfig) : Prop where
  counted : s.numPeers = s.endpoints.length
  inBounds : ∀ store ∈ s.stores, store.1 < store.2
  filled : ∀ k : ℕ, (k : ℤ) < s.numPeers → ∃ endpt ip port, s.endpoints[k]? = some endpt ∧
    validateIpPort endpt = .ok (ip, port) ∧ (s.peers k).Holds ip port

/-- The lines with `GW`. -/
def gwLines (content : List Char) : List (List Char) :=
  (configLines content).filter fun buf => chkSubStr buf ['G', 'W']

/-- The line has no endpoint: it begins with its `=`, or there are only commas behind it. -/
def NoEndpoint (buf : List Char) : Prop :=
  ∃ key value, buf = key ++ '=' :: value ∧ (key = [] ∨ ∀ c ∈ value, c = ',')

/-- Something stands before the `=`, without commas, and behind it there is an endpoint with an address of
less than 16 characters before each comma and behind the last. -/
def EndpointPerComma (buf : List Char) : Prop :=
  ∃ key value, buf = key ++ '=' :: value ∧ key ≠ [] ∧ ',' ∉ key ∧
    ∀ endpt ∈ value.splitOn ',', endpt ≠ [] ∧ (endpt.takeWhile (· ≠ ':')).length < 16

/-- Of the lines with `GW` the last has an endpoint per comma and one more, and the others have none. -/
def OneFullLine (content : List Char) : Prop :=
  ∃ earlier last, gwLines content = earlier ++ [last] ∧ (∀ buf ∈ earlier, NoEndpoint buf) ∧
    EndpointPerComma last

end TcpClb

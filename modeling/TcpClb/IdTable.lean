import TcpClb.Records

/-!
# The transaction id table

The operations of `task.c` on `gtsidq`, with the table as the list of its entries in `next`
order. A new id is assigned to a connection by the round-robin search of `add_entry_idq`, which
the source writes as a backward `goto` without a bound: the model follows it for as many probes
as there are peers, after which it has seen every peer and would go round for ever.
-/

namespace TcpClb

variable {F P : Type}

/-- The moment at which an id registered now expires. -/
def Timeval.addExpiry (t : Timeval) : Timeval := { t with tvSec := t.tvSec + expiry }

/-- The comparison of `list_expired_idq`: seconds first, then microseconds. -/
def Timeval.before (t now : Timeval) : Bool :=
  t.tvSec < now.tvSec || (t.tvSec == now.tvSec && t.tvUsec < now.tvUsec)

/-- Connection of the entry for an id; the source returns 1 and stores it through `conn`. -/
def isIDPresentIdq (head : List (Tsidque F P)) (tid : List Char) : Option ℤ :=
  if tid = [] then none else (head.find? fun temp => temp.id = tid).map Tsidque.conn

/-- What `lookup_ID_idq` writes through its out parameters when it returns 1. -/
structure Found (F P : Type) where
  elapsedMsecs : ℤ
  id : List Char
  isExpired : Bool
  callbackF : F
  callbackParam : P
  deriving DecidableEq

/-- Milliseconds since `ATime`, with the truncating division of C. -/
def elapsedMsecs (aTime curr : Timeval) : ℤ :=
  (curr.tvSec - aTime.tvSec) * 1000 + (curr.tvUsec - aTime.tvUsec).tdiv 1000

/-- Copy the entry of an id out of the table, with the time since it was registered. -/
def lookupIDIdq (head : List (Tsidque F P)) (tid : List Char) (curr : Timeval) : Option (Found F P) :=
  if tid = [] then none else
    (head.find? fun temp => temp.id = tid).map fun temp =>
      { elapsedMsecs := elapsedMsecs temp.aTime curr
        id := temp.id
        isExpired := temp.isExpired
        callbackF := temp.callbackF
        callbackParam := temp.callbackParam }

/-- The assignments of `update_entry_idq` to the entry it finds; `is_expired` keeps its value. -/
def Tsidque.renew (temp : Tsidque F P) (callbackF : F) (callbackParam : P) (now : Timeval) :
    Tsidque F P :=
  { temp with
    aTime := now
    eTime := now.addExpiry
    callbackF := callbackF
    callbackParam := callbackParam }

/-- The loop of `update_entry_idq`: renew the first entry of the id, or report -1. -/
def updateFrom (id : List Char) (callbackF : F) (callbackParam : P) (now : Timeval) :
    List (Tsidque F P) → List (Tsidque F P) × ℤ
  | [] => ([], -1)
  | temp :: next =>
    if temp.id = id then (temp.renew callbackF callbackParam now :: next, temp.conn)
    else
      let updated := updateFrom id callbackF callbackParam now next
      (temp :: updated.1, updated.2)

/-- Renew the entry of an id. An empty table gives 0, which is also a valid connection. -/
def updateEntryIdq (head : List (Tsidque F P)) (id : List Char) (callbackF : F) (callbackParam : P)
    (now : Timeval) : List (Tsidque F P) × ℤ :=
  if head = [] then ([], 0) else updateFrom id callbackF callbackParam now head

/-- `get_peers`: one connection entry is allocated for each configured peer. -/
def getPeers (gconnList : List Con) : ℕ := gconnList.length

/-- `glast_con_rr++; if (glast_con_rr == num_peers) glast_con_rr = 0;` -/
def advanceRr (numPeers glastConRr : ℕ) : ℕ :=
  if glastConRr + 1 = numPeers then 0 else glastConRr + 1

/-- The search from `reassign_conn` on: the connection found and the cursor behind it. -/
def reassignConn (gconnList : List Con) : ℕ → ℕ → Option (ℕ × ℕ)
  | 0, _ => none
  | probes + 1, glastConRr =>
    let con := glastConRr % getPeers gconnList
    match gconnList[con]? with
    | none => none
    | some c =>
      if c.state = 1 then some (con, advanceRr (getPeers gconnList) glastConRr)
      else reassignConn gconnList probes (advanceRr (getPeers gconnList) glastConRr)

/-- Register a new id at the end of the table: new table, new cursor, connection or -1. -/
def addEntryIdq (head : List (Tsidque F P)) (glastConRr : ℕ) (gconnList : List Con) (tid : List Char)
    (callbackF : F) (callbackParam : P) (now : Timeval) : Option (List (Tsidque F P) × ℕ × ℤ) :=
  if tid = [] then some (head, glastConRr, -1) else
    (reassignConn gconnList (getPeers gconnList) glastConRr).map fun assigned =>
      (head ++ [{ id := tid, conn := assigned.1, isExpired := false, aTime := now,
                  eTime := now.addExpiry, callbackF := callbackF, callbackParam := callbackParam }],
        assigned.2, assigned.1)

/-- The part of `push_to_msgq` that registers the id and decides the connection of the message. -/
def routeId (idhead : List (Tsidque F P)) (glastConRr : ℕ) (gconnList : List Con) (tid : List Char)
    (callbackF : F) (callbackParam : P) (now : Timeval) : Option (List (Tsidque F P) × ℕ × ℤ) :=
  match isIDPresentIdq idhead tid with
  | some conn =>
    let updated := updateEntryIdq idhead tid callbackF callbackParam now
    -- `goto add` when the update reports that the entry is gone
    if updated.2 = -1 then addEntryIdq updated.1 glastConRr gconnList tid callbackF callbackParam now
    else some (updated.1, glastConRr, conn)
  | none => addEntryIdq idhead glastConRr gconnList tid callbackF callbackParam now

/-- The assignment of `list_expired_idq` to one entry. -/
def Tsidque.markExpired (current : Tsidque F P) (now : Timeval) : Tsidque F P :=
  if current.eTime.before now then { current with isExpired := true } else current

/-- Mark every entry that has expired; the clock is read again for each entry. Before the assignment
`syslog` prints `callback_param` with `%s`, which has to lead to a string unless it is `NULL`. -/
def listExpiredIdq (printable : P → Bool) : List (Tsidque F P) → (ℕ → Timeval) → Option (List (Tsidque F P))
  | [], _ => some []
  | current :: next, now =>
    if current.eTime.before (now 0) ∧ printable current.callbackParam = false then none
    else (listExpiredIdq printable next fun i => now (i + 1)).map (current.markExpired (now 0) :: ·)

/-- The table that `list_expired_idq` leaves when it returns. -/
def sweptIdq : List (Tsidque F P) → (ℕ → Timeval) → List (Tsidque F P)
  | [], _ => []
  | current :: next, now => current.markExpired (now 0) :: sweptIdq next fun i => now (i + 1)

/-- Remove the first entry of an id. -/
def remId : List (Tsidque F P) → List Char → List (Tsidque F P)
  | [], _ => []
  | current :: next, tid => if current.id = tid then next else current :: remId next tid

end TcpClb

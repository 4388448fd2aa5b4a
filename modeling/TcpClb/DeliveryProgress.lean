import TcpClb.Common.Census
import TcpClb.PeerDelivery
import TcpClb.ThreadUpkeep

/-!
# The queue can always be emptied

A run of the threads in which no pop takes the last of several nodes, clients take turns and wake the right worker, and
the messages can be sent never leads to a state that the send workers cannot get out of. When no client is between its
two steps the workers alone, whatever else has happened, can always go on until every message that has been appended
has been taken by the worker of its connection and freed.

In the schedule that shows this a worker in `recreate_conn` gives back the lock first, then messages in hand are sent,
and then the worker for the first message in the queue takes it, so that no pop takes the last of several nodes. Every
step brings a worker closer to its next pop, or takes a message out of the queue.
-/

namespace TcpClb

open TcpClb.Common

variable {F P : Type}

/-- `msglen` holds the header for this length, the buffer can be printed, and as many bytes can be read. -/
def Request.Sendable (req : Request) (len : ℤ) : Prop :=
  (lengthHeader len).length < msglenSize ∧ req.Printable ∧ len ≤ req.readable.length

/-- The step leaves the tail of the queue, wakes the worker it has to, and appends only what can be sent. -/
structure Action.Serves (s : LoggedSystem F P) (a : Action F P) : Prop where
  leavesTail : a.LeavesTail s
  wakesInTurn : a.WakesInTurn s.sys
  sendable : ∀ k req callbackF callbackParam now, a = .append k req callbackF callbackParam now →
    req.Sendable req.msgLen

/-- What holds in every run of such steps. -/
structure LoggedSystem.Serving (n : ℕ) (s : LoggedSystem F P) : Prop where
  inOrder : s.InOrder
  tied : s.sys.Tied
  wakeful : s.sys.Wakeful
  upkept : s.sys.Upkept n
  taken : ∀ i : ℕ, (s.sys.send i).taken = deliveredTo (i : ℤ) s.log
  waiting : ∀ m ∈ s.waiting, m.data.Sendable m.len ∧ ∃ i < n, m.conn = (i : ℤ)
  hands : ∀ i x, (s.sys.send i).hand.node = some x → x.2.data.Sendable x.2.len

/-- What the system calls return to the workers of a pair in each state: the descriptor from `socket`, whether `connect`
succeeds, and the result of `send`. -/
structure KernelAnswers (F P : Type) where
  socket : System F P → ℕ → ℤ
  connect : System F P → ℕ → Bool
  send : System F P → ℕ → SendResult

/-- A new descriptor has a number that was free, and no call of `send` would block. -/
structure KernelAnswers.Prompt (answers : KernelAnswers F P) : Prop where
  socket : ∀ s i, 0 ≤ answers.socket s i → s.shared.kernel.isOpen (answers.socket s i) = false
  send : ∀ s i errno, answers.send s i = .failed errno → errno.wouldBlock = false

/-- A step of a worker that gets these answers, and does not need clients, messages of peers or a spurious wake-up. -/
def Action.OfWorker (answers : KernelAnswers F P) (s : LoggedSystem F P) : Action F P → Prop
  | .recv i (.recreate fd) | .send i (.recreate fd) => fd = answers.socket s.sys i
  | .recv i (.connect connected) | .send i (.connect connected) => connected = answers.connect s.sys i
  | .send i (.send r) => r = answers.send s.sys i
  | .send _ .wake => False
  | .send _ _ => True
  | _ => False

/-- How many bytes a part of a message has at most. -/
def Part.bound (m : Msgque) : Part → ℕ
  | .header => (lengthHeader m.len).length
  | .body => m.len.toNat

/-- How many steps a send worker makes at most until it pops. -/
def SendPc.stepsLeft : SendPc → ℕ
  | .start .header x => 14 + Part.header.bound x.msg + Part.body.bound x.msg
  | .sending .header x _ rest => 13 + rest.length + Part.body.bound x.msg
  | .failed .header x => 12 + Part.body.bound x.msg
  | .start .body x => 11 + Part.body.bound x.msg
  | .sending .body _ _ rest => 10 + rest.length
  | .failed .body _ => 9
  | .free _ => 8
  | .test => 6
  | .checkState => 5
  | .lock => 4
  | .recreate => 3
  | .connect _ => 2
  | .pop => 1
  | .waiting => 0

/-- How many steps a receive worker makes until it has given back the lock. -/
def RecvPc.stepsLeft : RecvPc → ℕ
  | .recreate => 2
  | .connect _ => 1
  | _ => 0

/-- How many steps the workers make for the messages that wait. -/
def stepsFor : List Msgque → ℕ
  | [] => 0
  | m :: rest => 15 + Part.header.bound m + Part.body.bound m + stepsFor rest

/-- How many steps the workers make at most until the queue is empty. -/
def LoggedSystem.effort (n : ℕ) (s : LoggedSystem F P) : ℕ :=
  stepsFor s.waiting + census n s.sys.send (fun w => w.pc.stepsLeft) + census n s.sys.recv fun w => w.pc.stepsLeft

/-- A worker can make a step after which less is left to do. -/
def LoggedSystem.CanMove (answers : KernelAnswers F P) (n : ℕ) (s : LoggedSystem F P) : Prop :=
  ∃ a next, a.OfWorker answers s ∧ loggedStep s a = some next ∧ (next.Serving n ∧ ∀ k, next.sys.pending k = false) ∧
    next.effort n < s.effort n

/-- A part of a message that can be sent can be read. -/
theorem Request.Sendable.text {m : Msgque} (hm : m.data.Sendable m.len) (part : Part) :
    ∃ text, part.text m = some text ∧ text.length ≤ part.bound m := by
  cases part with
  | header => exact ⟨_, if_pos hm.1, Nat.le_refl _⟩
  | body => exact ⟨_, if_pos hm.2, List.length_take_le _ _⟩

section Keeping

variable {n : ℕ} {s next : LoggedSystem F P} {a : Action F P}

/-- What a step appends can be sent, and is for one of the connections. -/
theorem pushed_mem_queueEvents (hs : s.sys.shared.Entries n) (ha : a.Serves s) {sys : System F P} {m : Msgque}
    (hm : .pushed m ∈ s.sys.queueEvents sys a) : m.data.Sendable m.len ∧ ∃ i < n, m.conn = (i : ℤ) := by
  cases a with
  | append k req callbackF callbackParam now =>
    simp only [System.queueEvents, List.mem_map, Option.mem_toList, QueueEvent.pushed.injEq] at hm
    obtain ⟨m', happended, rfl⟩ := hm
    obtain ⟨hid, h⟩ := Option.ite_none_left_eq_some.mp happended
    obtain ⟨routed, hrouted, rfl⟩ := Option.map_eq_some_iff.mp h
    exact ⟨ha.sendable k req callbackF callbackParam now rfl, (routeId_inRange hs.entries hs.routed hid hrouted).2⟩
  | send i b =>
    cases b with
    | pop =>
      simp only [System.queueEvents] at hm
      split at hm
      · cases List.mem_singleton.mp hm
      · cases hm
    | test | wake | checkState | lock | recreate | connect | start | send | failed | free => cases hm
  | recv | signal | sweep => cases hm

/-- A message that is taken has waited. -/
theorem LoggedSystem.InOrder.mem_waiting_of_popped {sys : System F P} {k : ℤ} {m : Msgque}
    (hs : (⟨sys, s.log ++ [.popped k (some m)]⟩ : LoggedSystem F P).InOrder) : m ∈ s.waiting := by
  obtain ⟨_, hlast, _⟩ := (popsEarliest_snoc Msgque.conn [] s.log _).mp hs.earliest
  exact List.mem_of_find?_eq_some hlast.symm

/-- What a worker has in hand after a step it has had before, or it has waited. -/
theorem QueueStep.hand_cases {sys sys' : System F P} {events : List (QueueEvent Msgque ℤ)}
    (hstep : QueueStep sys sys' a events) {i : ℕ} {x : ℕ × Msgque} (hx : (sys'.send i).hand.node = some x) :
    (∃ j, (sys.send j).hand.node = some x) ∨ ∃ k, events = [.popped k (some x.2)] := by
  cases hstep with
  | keep _ _ hhand | push _ _ hhand | popNone _ _ hhand => exact .inl ⟨i, hhand i ▸ hx⟩
  | pop hentry hpop hval hold hhand =>
    rw [hhand] at hx
    split at hx
    · cases hx
      exact .inr ⟨_, rfl⟩
    · exact .inl ⟨i, hx⟩
  | free hold hfree hhand =>
    rw [hhand] at hx
    split at hx
    · cases hx
    · exact .inl ⟨i, hx⟩

/-- A step that meets the condition keeps all of it. -/
theorem loggedStep_serving (hs : s.Serving n) (ha : a.Serves s) (hstep : loggedStep s a = some next) :
    next.Serving n := by
  have horder := (loggedStep_inOrder_iff hs.inOrder hstep).mpr ha.leavesTail
  obtain ⟨sys, hsys, rfl⟩ := Option.map_eq_some_iff.mp hstep
  have hqueue := sysStep_queue hsys
  exact {
    inOrder := horder
    tied := (sysStep_tied hs.tied hsys).2
    wakeful := sysStep_wakeful hs.wakeful ha.wakesInTurn hsys
    upkept := sysStep_upkept hs.upkept hsys
    taken := hqueue.taken hs.tied.peerId hs.taken
    waiting := by
      intro m hm
      rw [LoggedSystem.waiting, pending, List.foldl_append] at hm
      rcases mem_foldl_waitingAfter hm with hold | hnew
      · exact hs.waiting m hold
      · exact pushed_mem_queueEvents hs.upkept.entries ha hnew
    hands := by
      intro i x hx
      rcases hqueue.hand_cases hx with ⟨j, hold⟩ | ⟨k, hevents⟩
      · exact hs.hands j x hold
      · rw [hevents] at horder
        exact (hs.waiting x.2 horder.mem_waiting_of_popped).1 }

/-- It holds of the workers that `manage` starts. -/
theorem manage_serving {cfg : Configurator} {start : ℕ → PeerStart} {sys : System F P}
    (hmanage : manage cfg start = some sys) (hup : ∀ i, 1 ≤ i → i < cfg.peers.length → (start i).Succeeds) :
    (⟨sys, []⟩ : LoggedSystem F P).Serving cfg.peers.length := by
  have htrack := manage_onTrack hmanage hup
  have hupkept := manage_upkept hmanage
  obtain ⟨⟨gconnList, kernel⟩, _, rfl⟩ := Option.map_eq_some_iff.mp hmanage
  exact {
    inOrder := htrack.inOrder
    tied := htrack.tied
    wakeful := fun _ _ h => by cases h
    upkept := hupkept
    taken := htrack.taken
    waiting := nofun
    hands := nofun }

end Keeping

/-- The next part is closer to the pop than the failure of one. -/
theorem stepsLeft_next (part : Part) (x : Transfer) : (part.next x).stepsLeft < (SendPc.failed part x).stepsLeft := by
  cases part with
  | header => exact Nat.add_lt_add_right (by decide : 11 < 12) _
  | body => exact (by decide : 8 < 9)

/-- The failure is closer than the loop of `send_to_fd`. -/
theorem stepsLeft_failed {x x' : Transfer} (hmsg : x'.msg = x.msg) (part : Part) (fd : ℤ) (rest : List Char) :
    (SendPc.failed part x').stepsLeft < (SendPc.sending part x fd rest).stepsLeft := by
  cases part with
  | header =>
    simp only [SendPc.stepsLeft, hmsg]
    omega
  | body =>
    simp only [SendPc.stepsLeft]
    omega

/-- The loop with fewer bytes left is closer than with more. -/
theorem stepsLeft_sendingOrNext {x x' : Transfer} (hmsg : x'.msg = x.msg) (part : Part) (fd : ℤ) {rest left : List Char}
    (hleft : left = [] ∨ left.length < rest.length) :
    (sendingOrNext part x' fd left).stepsLeft < (SendPc.sending part x fd rest).stepsLeft := by
  unfold sendingOrNext
  split
  · exact (stepsLeft_next part x').trans (stepsLeft_failed hmsg part fd rest)
  · next hne =>
    have hless := hleft.resolve_left hne
    cases part with
    | header =>
      simp only [SendPc.stepsLeft, hmsg]
      omega
    | body =>
      simp only [SendPc.stepsLeft]
      omega

/-- The loop with the whole part is closer than the call of it. -/
theorem stepsLeft_start {x : Transfer} {part : Part} (fd : ℤ) {text : List Char}
    (htext : text.length ≤ part.bound x.msg) :
    (sendingOrNext part x fd text).stepsLeft < (SendPc.start part x).stepsLeft := by
  have hloop : (SendPc.sending part x fd text).stepsLeft < (SendPc.start part x).stepsLeft := by
    cases part with
    | header | body =>
      simp only [SendPc.stepsLeft]
      omega
  unfold sendingOrNext
  split
  · exact ((stepsLeft_next part x).trans (stepsLeft_failed rfl part fd text)).trans hloop
  · exact hloop

/-- A call of `send` that does not block leaves fewer bytes, if it does not fail. -/
theorem sendOnce_shorter {rest left : List Char} {r : SendResult}
    (hr : ∀ errno, r = .failed errno → errno.wouldBlock = false) (h : sendOnce rest r = some left) :
    left = [] ∨ left.length < rest.length := by
  cases r with
  | sent count =>
    obtain ⟨hcount, h⟩ := Option.ite_none_left_eq_some.mp h
    rw [← Option.some.inj h, List.drop_eq_nil_iff, List.length_drop]
    omega
  | failed errno =>
    obtain ⟨hblock, _⟩ := Option.ite_none_right_eq_some.mp h
    exact absurd (hr errno rfl) (by rw [hblock]; decide)

section Moving

variable {n : ℕ} {s : LoggedSystem F P} {answers : KernelAnswers F P}

/-- A send worker that makes a step other than a pop, and comes closer to its next one. -/
theorem LoggedSystem.Serving.move_send (hs : s.Serving n) (hclients : ∀ k, s.sys.pending k = false) {i : ℕ} {c : Con}
    {a : SendAction} {shared : Shared F P} {w : SendWorker} (hc : s.sys.shared.gconnList[i]? = some c)
    (hstep : sendStep s.sys.shared i c (s.sys.send i) a = some (shared, w)) (hpop : a ≠ .pop)
    (hworker : (Action.send i a : Action F P).OfWorker answers s)
    (hless : w.pc.stepsLeft < (s.sys.send i).pc.stepsLeft) : s.CanMove answers n := by
  have hi : i < n := hs.upkept.entries.entries ▸ (List.getElem?_eq_some_iff.mp hc).1
  have hlogged : loggedStep s (.send i a) =
      some ⟨{ s.sys with shared := shared, send := Function.update s.sys.send i w }, s.log⟩ := by
    have hevents (next : System F P) : s.sys.queueEvents next (.send i a) = [] := by
      cases a <;> first | rfl | exact absurd rfl hpop
    rw [loggedStep, sysStep, hc, Option.bind_some, hstep, Option.map_some, Option.map_some, hevents, List.append_nil]
  have hserves : (Action.send i a : Action F P).Serves s :=
    ⟨leavesTail_of_ne fun j h => hpop (Action.send.inj h).2, trivial, by simp⟩
  refine ⟨.send i a, _, hworker, hlogged, ⟨loggedStep_serving hs hserves hlogged, hclients⟩, ?_⟩
  have hcensus := census_update hi s.sys.send (fun w => w.pc.stepsLeft) w
  change stepsFor s.waiting + census n (Function.update s.sys.send i w) _ + census n s.sys.recv _ <
    stepsFor s.waiting + _ + _
  omega

/-- A receive worker that comes closer to giving back the lock. -/
theorem LoggedSystem.Serving.move_recv (hs : s.Serving n) (hclients : ∀ k, s.sys.pending k = false) {i : ℕ} {c : Con}
    {a : RecvAction} {shared : Shared F P} {w : RecvWorker} (hc : s.sys.shared.gconnList[i]? = some c)
    (hstep : recvStep s.sys.shared i c (s.sys.recv i) a = some (shared, w))
    (hworker : (Action.recv i a : Action F P).OfWorker answers s)
    (hless : w.pc.stepsLeft < (s.sys.recv i).pc.stepsLeft) : s.CanMove answers n := by
  have hi : i < n := hs.upkept.entries.entries ▸ (List.getElem?_eq_some_iff.mp hc).1
  have hlogged : loggedStep s (.recv i a) =
      some ⟨{ s.sys with shared := shared, recv := Function.update s.sys.recv i w }, s.log⟩ := by
    have hevents (next : System F P) : s.sys.queueEvents next (.recv i a) = [] := rfl
    rw [loggedStep, sysStep, hc, Option.bind_some, hstep, Option.map_some, Option.map_some, hevents, List.append_nil]
  have hserves : (Action.recv i a : Action F P).Serves s := ⟨trivial, trivial, by simp⟩
  refine ⟨_, _, hworker, hlogged, ⟨loggedStep_serving hs hserves hlogged, hclients⟩, ?_⟩
  have hcensus := census_update hi s.sys.recv (fun w => w.pc.stepsLeft) w
  change stepsFor s.waiting + census n s.sys.send _ + census n (Function.update s.sys.recv i w) _ <
    stepsFor s.waiting + _ + _
  omega

/-- The entry of a pair. -/
theorem LoggedSystem.Serving.entry (hs : s.Serving n) {i : ℕ} (hi : i < n) :
    ∃ c, s.sys.shared.gconnList[i]? = some c ∧ c.peerId = i := by
  have hc := List.getElem?_eq_getElem (hs.upkept.entries.entries ▸ hi : i < s.sys.shared.gconnList.length)
  exact ⟨_, hc, hs.tied.peerId i _ hc⟩

/-- `recreate_conn` gets as far as the return of `socket`. -/
theorem LoggedSystem.Serving.recreate (hs : s.Serving n) (hanswers : answers.Prompt) {i : ℕ} (hi : i < n) :
    ∃ shared, s.sys.shared.recreate i (i : ℤ) (answers.socket s.sys i) = some shared := by
  obtain ⟨_, hpeers, hports, _⟩ := hs.upkept.entries
  have hpeer := List.getElem?_eq_getElem (hpeers ▸ hi : i < s.sys.shared.refGcfg.peers.length)
  obtain ⟨k, hsocket⟩ : ∃ k, s.sys.shared.kernel.socket i (answers.socket s.sys i) = some k := by
    unfold Kernel.socket
    split
    · exact ⟨_, rfl⟩
    · next hmade =>
      rw [if_neg (by rw [hanswers.socket s.sys i (not_lt.mp hmade)]; decide)]
      exact ⟨_, rfl⟩
  have hmade : recreateSocket s.sys.shared.refGcfg s.sys.shared.gconnList s.sys.shared.kernel (i : ℤ)
      (answers.socket s.sys i) =
        some (setFd (setState s.sys.shared.gconnList i 0) i (answers.socket s.sys i), k) := by
    change (s.sys.shared.refGcfg.peers[i]?.bind fun peer => _) = _
    rw [hpeer, Option.bind_some, if_pos (hports _ (List.getElem_mem _)), hsocket]
    rfl
  exact ⟨_, by rw [Shared.recreate, hmade]; rfl⟩

/-- The worker of the first message that waits takes it. -/
theorem LoggedSystem.Serving.move_pop (hs : s.Serving n) (hclients : ∀ k, s.sys.pending k = false) {i : ℕ} (hi : i < n)
    {m : Msgque} {rest : List Msgque} (hwaiting : s.waiting = m :: rest) (hm : m.conn = (i : ℤ))
    (hpc : (s.sys.send i).pc = .pop) : s.CanMove answers n := by
  obtain ⟨c, hc, hpeer⟩ := hs.entry hi
  obtain ⟨nodes, hq, hnodes⟩ := hs.inOrder.linked
  rw [hwaiting] at hnodes
  obtain ⟨⟨a, m'⟩, nodes, rfl, hm', _⟩ := List.map_eq_cons_iff.mp hnodes
  obtain rfl : m' = m := hm'
  obtain ⟨q, hpop, _, hcell⟩ := popFromMsgq_first s.sys.shared.store.gmsgq c.peerId a m' nodes hq (hm.trans hpeer.symm)
  have hstep : ∃ shared, sendStep s.sys.shared i c (s.sys.send i) .pop = some (shared,
      { s.sys.send i with pc := .start .header ⟨a, m', []⟩, taken := (s.sys.send i).taken ++ [m'] }) := by
    refine ⟨{ s.sys.shared with store := { s.sys.shared.store with gmsgq := q } }.record i (.took m'.conn), ?_⟩
    rw [sendStep, if_pos hpc, hpop]
    dsimp only
    rw [hcell]
    rfl
  obtain ⟨shared, hstep⟩ := hstep
  have hsafe : ¬ TailFirst c.peerId s.waiting := by
    rintro ⟨htwo, hlast⟩
    rw [hwaiting, List.findIdx_cons, decide_eq_true (hm.trans hpeer.symm)] at hlast
    rw [hwaiting] at htwo
    change 0 + 1 = _ at hlast
    omega
  have hserves : (Action.send i .pop : Action F P).Serves s :=
    ⟨(leavesTail_pop_iff hc).mpr hsafe, trivial, by simp⟩
  have hlogged : loggedStep s (.send i .pop) = some
      ⟨{ s.sys with
          shared := shared
          send := Function.update s.sys.send i
            { s.sys.send i with pc := .start .header ⟨a, m', []⟩, taken := (s.sys.send i).taken ++ [m'] } },
        s.log ++ [.popped c.peerId (some m')]⟩ := by
    rw [loggedStep, sysStep, hc, Option.bind_some, hstep, Option.map_some, Option.map_some]
    simp [System.queueEvents, hc, SendPc.node, SendPc.inHand]
  refine ⟨.send i .pop, _, trivial, hlogged, ⟨loggedStep_serving hs hserves hlogged, hclients⟩, ?_⟩
  have hcensus := census_update hi s.sys.send (fun w => w.pc.stepsLeft)
    { s.sys.send i with pc := .start .header ⟨a, m', []⟩, taken := (s.sys.send i).taken ++ [m'] }
  rw [hpc] at hcensus
  rw [LoggedSystem.effort, LoggedSystem.effort, waiting_snoc, hwaiting, waitingAfter, List.eraseP_cons_of_pos
    (by simpa using hm.trans hpeer.symm)]
  change _ + 1 = _ + (14 + Part.header.bound m' + Part.body.bound m') at hcensus
  change stepsFor rest + census n (Function.update s.sys.send i _) _ + census n s.sys.recv _ <
    15 + Part.header.bound m' + Part.body.bound m' + stepsFor rest + _ + _
  omega

/-- A send worker can move unless it waits, finds the queue empty or cannot get the lock. -/
theorem LoggedSystem.Serving.send_canMove (hs : s.Serving n) (hclients : ∀ k, s.sys.pending k = false)
    (hanswers : answers.Prompt) {i : ℕ} (hi : i < n) (hawake : (s.sys.send i).pc ≠ .waiting)
    (htest : (s.sys.send i).pc = .test → s.sys.shared.store.gmsgq.head ≠ none)
    (hlock : (s.sys.send i).pc = .lock → s.sys.shared.conntex = false)
    (hpop : (s.sys.send i).pc = .pop → ∃ m rest, s.waiting = m :: rest ∧ m.conn = (i : ℤ)) :
    s.CanMove answers n := by
  obtain ⟨c, hc, hpeer⟩ := hs.entry hi
  -- a message in hand can be read, and its node freed
  have hhand (x : Transfer) (hx : (s.sys.send i).pc.node = some (x.node, x.msg)) :
      x.msg.data.Sendable x.msg.len ∧ ∃ q, s.sys.shared.store.gmsgq.freeNode x.node = some q := by
    obtain ⟨cell, hcell, _⟩ := exists_get_of_valAt (hs.inOrder.held i _ hx).1
    obtain ⟨heap, hfree⟩ := Heap.exists_free hcell
    exact ⟨hs.hands i _ hx, _, by rw [MsgList.freeNode, hfree]; rfl⟩
  cases hpc : (s.sys.send i).pc with
  | waiting => exact absurd hpc hawake
  | test =>
    refine hs.move_send hclients (a := .test) hc (by rw [sendStep, if_pos hpc, if_neg (htest hpc)])
      (by simp) trivial ?_
    rw [hpc]
    exact (by decide : 5 < 6)
  | checkState =>
    by_cases hstate : c.state = 1
    · refine hs.move_send hclients (a := .checkState) hc (by rw [sendStep, if_pos hpc, if_pos hstate])
        (by simp) trivial ?_
      rw [hpc]
      exact (by decide : 1 < 5)
    · refine hs.move_send hclients (a := .checkState) hc (by rw [sendStep, if_pos hpc, if_neg hstate])
        (by simp) trivial ?_
      rw [hpc]
      exact (by decide : 4 < 5)
  | lock =>
    refine hs.move_send hclients (a := .lock) hc (by rw [sendStep, if_pos ⟨hpc, hlock hpc⟩]) (by simp) trivial ?_
    rw [hpc]
    exact (by decide : 3 < 4)
  | recreate =>
    obtain ⟨shared, hrecreate⟩ := hs.recreate hanswers hi
    refine hs.move_send hclients (a := .recreate (answers.socket s.sys i)) hc
      (by rw [sendStep, if_pos hpc, hpeer, hrecreate, Option.map_some]) (by simp) rfl ?_
    rw [hpc]
    exact (by decide : 2 < 3)
  | connect pid =>
    refine hs.move_send hclients (a := .connect (answers.connect s.sys i)) hc (by rw [sendStep, hpc])
      (by simp) rfl ?_
    rw [hpc]
    exact (by decide : 1 < 2)
  | pop =>
    obtain ⟨m, rest, hwaiting, hm⟩ := hpop hpc
    exact hs.move_pop hclients hi hwaiting hm hpc
  | start part x =>
    obtain ⟨text, htext, hbound⟩ := (hhand x (by rw [hpc]; rfl)).1.text part
    refine hs.move_send hclients (a := .start) hc (by rw [sendStep, hpc]; dsimp only; rw [htext, Option.map_some])
      (by simp) trivial ?_
    rw [hpc]
    exact stepsLeft_start c.fd hbound
  | sending part x fd rest =>
    have hmsg (call : SendCall) : (x.record call).msg = x.msg := rfl
    cases hsend : sendOnce rest (answers.send s.sys i) with
    | none =>
      refine hs.move_send hclients (a := .send (answers.send s.sys i)) hc
        (by rw [sendStep, hpc]; dsimp only; rw [hsend]) (by simp) rfl ?_
      rw [hpc]
      exact stepsLeft_failed (hmsg _) part fd rest
    | some left =>
      refine hs.move_send hclients (a := .send (answers.send s.sys i)) hc
        (by rw [sendStep, hpc]; dsimp only; rw [hsend]) (by simp) rfl ?_
      rw [hpc]
      exact stepsLeft_sendingOrNext (hmsg _) part fd (sendOnce_shorter (hanswers.send s.sys i) hsend)
  | failed part x =>
    refine hs.move_send hclients (a := .failed) hc (by rw [sendStep, hpc]) (by simp) trivial ?_
    rw [hpc]
    exact stepsLeft_next part x
  | free x =>
    obtain ⟨q, hfree⟩ := (hhand x (by rw [hpc]; rfl)).2
    refine hs.move_send hclients (a := .free) hc (by rw [sendStep, hpc]; dsimp only; rw [hfree, Option.map_some])
      (by simp) trivial ?_
    rw [hpc]
    exact (by decide : 6 < 8)

/-- A worker that has the lock can move. -/
theorem LoggedSystem.Serving.locked_canMove (hs : s.Serving n) (hclients : ∀ k, s.sys.pending k = false)
    (hanswers : answers.Prompt) {t : Worker} (ht : s.sys.Locked t) : s.CanMove answers n := by
  cases t with
  | inl i =>
    change (s.sys.recv i).pc.Locked at ht
    have hi : i < n := by
      by_contra hle
      rw [hs.upkept.manned.recv i (by omega)] at ht
      exact ht
    obtain ⟨c, hc, hpeer⟩ := hs.entry hi
    cases hpc : (s.sys.recv i).pc with
    | recreate =>
      obtain ⟨shared, hrecreate⟩ := hs.recreate hanswers hi
      refine hs.move_recv hclients (a := .recreate (answers.socket s.sys i)) hc
        (by rw [recvStep, if_pos hpc, hpeer, hrecreate, Option.map_some]) rfl ?_
      rw [hpc]
      exact (by decide : 1 < 2)
    | connect pid =>
      refine hs.move_recv hclients (a := .connect (answers.connect s.sys i)) hc (by rw [recvStep, hpc]) rfl ?_
      rw [hpc]
      exact (by decide : 0 < 1)
    | test | lock | call | receiving | dispatch | close | clear =>
      rw [hpc] at ht
      exact absurd ht id
  | inr i =>
    change (s.sys.send i).pc.Locked at ht
    have hi : i < n := by
      by_contra hle
      rw [hs.upkept.manned.send i (by omega)] at ht
      exact ht
    have hne (pc : SendPc) (hpc : ¬ pc.Locked) : (s.sys.send i).pc ≠ pc := fun h => hpc (h ▸ ht)
    exact hs.send_canMove hclients hanswers hi (hne .waiting id) (fun h => absurd h (hne .test id))
      (fun h => absurd h (hne .lock id)) fun h => absurd h (hne .pop id)

/-- A worker that has a message in hand can move. -/
theorem LoggedSystem.Serving.hand_canMove (hs : s.Serving n) (hclients : ∀ k, s.sys.pending k = false)
    (hanswers : answers.Prompt) {i : ℕ} (hhand : (s.sys.send i).hand.node ≠ none) : s.CanMove answers n := by
  have hne (pc : SendPc) (hpc : pc.node = none) : (s.sys.send i).pc ≠ pc := fun h => hhand (by rw [← hpc, ← h]; rfl)
  have hi : i < n := by
    by_contra hle
    exact hne .test rfl (hs.upkept.manned.send i (by omega))
  exact hs.send_canMove hclients hanswers hi (hne .waiting rfl) (fun h => absurd h (hne .test rfl))
    (fun h => absurd h (hne .lock rfl)) fun h => absurd h (hne .pop rfl)

/-- If a message waits and the lock is free, the worker of the first one can move. -/
theorem LoggedSystem.Serving.waiting_canMove (hs : s.Serving n) (hclients : ∀ k, s.sys.pending k = false)
    (hanswers : answers.Prompt) (hfree : s.sys.shared.conntex = false) {m : Msgque} {rest : List Msgque}
    (hwaiting : s.waiting = m :: rest) : s.CanMove answers n := by
  obtain ⟨_, i, hi, hm⟩ := hs.waiting m (hwaiting ▸ List.mem_cons_self)
  obtain ⟨nodes, hq, hnodes⟩ := hs.inOrder.linked
  obtain ⟨⟨a, m'⟩, nodes, rfl, hm', _⟩ := List.map_eq_cons_iff.mp (hnodes.trans hwaiting)
  obtain rfl : m' = m := hm'
  obtain ⟨hhead, next, hget, _⟩ := Represents.first hq
  have hholds : s.sys.Holds i := ⟨a, _, by rw [hhead]; exact Reach.here a, hget, hm⟩
  refine hs.send_canMove hclients hanswers hi (hs.wakeful.noLostWakeup hclients i hholds) (fun _ => ?_) (fun _ => hfree)
    fun _ => ⟨m', rest, hwaiting, hm⟩
  rw [hhead]
  exact Option.some_ne_none a

/-- As long as there is something to send, some worker can move. -/
theorem LoggedSystem.Serving.done_or_canMove (hs : s.Serving n) (hclients : ∀ k, s.sys.pending k = false)
    (hanswers : answers.Prompt) :
    (s.waiting = [] ∧ ∀ i, (s.sys.send i).hand.node = none) ∨ s.CanMove answers n := by
  cases hlocked : s.sys.shared.conntex with
  | true =>
    obtain ⟨t, ht⟩ := hs.upkept.held hlocked
    exact .inr (hs.locked_canMove hclients hanswers ht)
  | false =>
    by_cases hhands : ∀ i, (s.sys.send i).hand.node = none
    · cases hwaiting : s.waiting with
      | nil => exact .inl ⟨rfl, hhands⟩
      | cons m rest => exact .inr (hs.waiting_canMove hclients hanswers hlocked hwaiting)
    · obtain ⟨i, hi⟩ := not_forall.mp hhands
      exact .inr (hs.hand_canMove hclients hanswers hi)

/-- If all messages have been taken and freed, each worker has freed those that were appended for its connection. -/
theorem LoggedSystem.Serving.finished_eq (hs : s.Serving n) (hwaiting : s.waiting = []) {i : ℕ}
    (hhand : (s.sys.send i).hand.node = none) :
    (s.sys.send i).finished.map Transfer.msg = queuedFor Msgque.conn (i : ℤ) s.log := by
  have hall := delivered_append_waiting Msgque.conn (i : ℤ) [] s.log hs.inOrder.earliest
  have hnone : s.log.foldl (waitingAfter Msgque.conn) [] = [] := hwaiting
  have haccounts := hs.upkept.accounted i
  have hnode : (s.sys.send i).pc.node = none := hhand
  rw [SendWorker.Accounted, hnode] at haccounts
  rw [hnone, List.filter_nil, List.append_nil, List.nil_append, ← hs.taken i, haccounts] at hall
  simpa using hall

end Moving

/-- After every run whose steps meet the condition, when no client is between its two steps, the workers alone can go
on, whatever their system calls return, until the queue is empty and each has freed, in order, the messages that were
appended for its connection. -/
theorem queue_canEmpty {cfg : Configurator} {start : ℕ → PeerStart} {sys : System F P}
    (hmanage : manage cfg start = some sys) (hup : ∀ i, 1 ≤ i → i < cfg.peers.length → (start i).Succeeds)
    {acts : List (Action F P)} {s : LoggedSystem F P}
    (hall : EachStep loggedStep (fun s a => a.Serves s) ⟨sys, []⟩ acts)
    (hrun : runActions loggedStep ⟨sys, []⟩ acts = some s) (hclients : ∀ k, s.sys.pending k = false)
    {answers : KernelAnswers F P} (hanswers : answers.Prompt) :
    ∃ more t, EachStep loggedStep (fun s a => a.OfWorker answers s) s more ∧ runActions loggedStep s more = some t ∧
      t.InOrder ∧ t.waiting = [] ∧
        ∀ i : ℕ, (t.sys.send i).hand.node = none ∧
          (t.sys.send i).finished.map Transfer.msg = queuedFor Msgque.conn (i : ℤ) t.log := by
  have hs : s.Serving cfg.peers.length :=
    throughout_final loggedStep _ _ s acts (throughout_of_eachStep loggedStep _ _ _ (fun _ h => h)
      (fun _ _ _ hs ha hstep => loggedStep_serving hs ha hstep) _ acts (manage_serving hmanage hup) hall) hrun
  obtain ⟨more, t, hmore, hrun', ht, hwaiting, hhands⟩ := exists_eachStep_of_measure loggedStep
    (fun s a => a.OfWorker answers s)
    (fun u => u.Serving cfg.peers.length ∧ ∀ k, u.sys.pending k = false)
    (fun u => u.Serving cfg.peers.length ∧ u.waiting = [] ∧ ∀ i, (u.sys.send i).hand.node = none)
    (LoggedSystem.effort cfg.peers.length)
    (fun u hu => (hu.1.done_or_canMove hu.2 hanswers).imp (fun hdone => ⟨hu.1, hdone⟩) id) ⟨hs, hclients⟩
  exact ⟨more, t, hmore, hrun', ht.inOrder, hwaiting, fun i => ⟨hhands i, ht.finished_eq hwaiting (hhands i)⟩⟩

/-- The first worker waits, and is woken for a message. -/
def wokenForMessage : List (Action Unit Unit) :=
  [.send 0 .test, .append 0 ⟨some ['x', '\x00'], 1, 0, 0, oneCharId 'a'⟩ () () ⟨0, 0⟩, .signal 0 (some 0)]

/-- No new socket can be made, and `send` accepts one byte at a time on a descriptor that is open. -/
def byteByByte : KernelAnswers Unit Unit where
  socket _ _ := -1
  connect _ _ := false
  send s i := match (s.send i).pc with
    | .sending _ _ fd _ => if s.shared.kernel.isOpen fd then .sent 1 else .failed (.other 9)
    | _ => .failed (.other 9)

/-- The message can be sent. -/
theorem wokenForMessage_canEmpty : ∃ s more t, runActions loggedStep ⟨twoPeersUp, []⟩ wokenForMessage = some s ∧
    EachStep loggedStep (fun s a => a.OfWorker byteByByte s) s more ∧ runActions loggedStep s more = some t ∧
      t.waiting = [] ∧ (t.sys.send 0).finished.map Transfer.msg = queuedFor Msgque.conn 0 t.log := by
  have hmanage : manage twoPeers bothConnect = some (twoPeersUp : System Unit Unit) := rfl
  obtain ⟨s, hrun, hpending⟩ : ∃ s : LoggedSystem Unit Unit,
      runActions loggedStep ⟨twoPeersUp, []⟩ wokenForMessage = some s ∧ ∀ k, s.sys.pending k = false := by
    refine ⟨_, rfl, fun k => ?_⟩
    match k with
    | 0 | _ + 1 => rfl
  have hall : EachStep loggedStep (fun s a => a.Serves s) ⟨twoPeersUp, []⟩ wokenForMessage := by
    apply EachStep.cons rfl ⟨trivial, trivial, nofun⟩
    refine EachStep.cons rfl ⟨trivial, ⟨fun _ => rfl, .inl rfl⟩, fun k req callbackF callbackParam now h => ?_⟩ ?_
    · cases h
      exact ⟨by decide, by decide, by decide⟩
    · refine EachStep.cons rfl ⟨trivial, fun c honly _ => ?_, nofun⟩ trivial
      exact congrArg some (Int.ofNat_inj.mp (honly.conn_eq rfl rfl))
  have hanswers : byteByByte.Prompt := by
    refine ⟨fun s i h => absurd (show (0 : ℤ) ≤ -1 from h) (by decide), fun s i errno h => ?_⟩
    simp only [byteByByte] at h
    split at h
    · split at h
      · cases h
      · cases h
        rfl
    · cases h
      rfl
  obtain ⟨more, t, hmore, hrun', _, hwaiting, hfinished⟩ :=
    queue_canEmpty hmanage (fun _ _ _ => Or.inl rfl) hall hrun hpending hanswers
  exact ⟨s, more, t, hrun, hmore, hrun', hwaiting, (hfinished 0).2⟩

end TcpClb

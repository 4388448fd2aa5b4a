import TcpClb.Common.Runs
import TcpClb.Framing
import TcpClb.SendDelivery

/-!
# What a connection carries

The bytes that a send worker has written on one connection, over all its messages. They are complete
frames and at most one truncated frame as long as a call of `send` accepts bytes only where they
belong: for a message of which no call has failed and all bytes are on the same connection so far,
and on a connection where no earlier message was cut off.

`send_worker_thread` ensures none of this. After `send_to_fd` has returned -1 for the header it sends
the body all the same, and the next message after that, on whatever `c->fd` is by then.
-/

namespace TcpClb

open TcpClb.Common

variable {F P : Type}

/-- Complete frames, and possibly the beginning of one more. -/
def FrameStream (bytes : List Char) : Prop :=
  ∃ bodies : List (List Char), (∀ body ∈ bodies, body.length ≤ 9999) ∧
    ∃ last cut, last.length ≤ 9999 ∧ cut <+: frame last ∧ bytes = bodies.flatMap frame ++ cut

/-- No call of `send` for the message has failed. -/
def Transfer.Harmless (x : Transfer) : Prop := ∀ call ∈ x.calls, call.result.Harmless

/-- The bytes of a message that a connection has accepted. -/
def Transfer.acceptedOn (x : Transfer) (conn : Connection) : List Char :=
  (x.calls.filter fun call => call.conn = conn).flatMap SendCall.accepted

/-- The messages that a worker has freed, and the one it has in hand. -/
def SendWorker.transfers (w : SendWorker) : List Transfer :=
  w.finished ++ (w.pc.inHand.map Prod.fst).toList

/-- The bytes that a worker has written on a connection. -/
def SendWorker.stream (w : SendWorker) (conn : Connection) : List Char :=
  w.transfers.flatMap fun x => x.acceptedOn conn

/-- What any send worker has written on any connection is a stream of frames. -/
def System.StreamsFramed (s : System F P) : Prop := ∀ i conn, FrameStream ((s.send i).stream conn)

/-- If the step is a call of `send` that accepts bytes, these belong where they go: the length has four
digits, no earlier call for the message has failed or accepted bytes on another connection, and the
connection has no bytes of an earlier message of which a call has failed. -/
def SendAction.Continues (s : Shared F P) (w : SendWorker) : SendAction → Prop
  | .send r => ∀ part x fd rest, w.pc = .sending part x fd rest → r.accepted rest ≠ [] →
      HasFourDigits x.msg.len ∧ x.Harmless ∧
        (∀ call ∈ x.calls, call.accepted ≠ [] → call.conn = s.kernel.connection fd) ∧
        ∀ y ∈ w.finished, y.acceptedOn (s.kernel.connection fd) ≠ [] → y.Harmless
  | _ => True

/-- The same for a step of the system. -/
def Action.Continues (s : System F P) : Action F P → Prop
  | .send i a => a.Continues s.shared (s.send i)
  | _ => True

/-- What has been accepted of a message is a beginning of its frame, all on one connection. -/
structure Transfer.Begun (x : Transfer) : Prop where
  digits : x.accepted ≠ [] → HasFourDigits x.msg.len
  oneConnection : x.OneConnection
  front : x.accepted <+: x.msg.wire

/-- A message that was freed without a failed call has been accepted whole, and had a body of the
length that it said. -/
def Transfer.Ended (x : Transfer) : Prop :=
  (x.Harmless → x.accepted = x.msg.wire) ∧ x.msg.len ≤ x.msg.data.readable.length

/-- Two messages share a connection only if no call for the earlier one has failed. -/
def Transfer.NotCutBy (x y : Transfer) : Prop :=
  ∀ conn, x.acceptedOn conn ≠ [] → y.acceptedOn conn ≠ [] → x.Harmless

/-- From the start of the body on, its buffer is known to hold the body. -/
def SendPc.Sized : SendPc → Prop
  | .sending .body x _ _ => x.msg.len ≤ x.msg.data.readable.length
  | .failed .body x => x.msg.len ≤ x.msg.data.readable.length
  | .free x => x.msg.len ≤ x.msg.data.readable.length
  | _ => True

/-- What holds of a worker all of whose calls accept bytes where they belong. -/
structure SendWorker.Framed (w : SendWorker) : Prop where
  tracked : w.Tracked
  sized : w.pc.Sized
  begun : ∀ x ∈ w.transfers, x.Begun
  ended : ∀ x ∈ w.finished, x.Ended
  notCut : w.transfers.Pairwise Transfer.NotCutBy

/-- One more complete frame in front of a stream of frames. -/
theorem FrameStream.cons {bytes body : List Char} (h : FrameStream bytes) (hbody : body.length ≤ 9999) :
    FrameStream (frame body ++ bytes) := by
  obtain ⟨bodies, hbodies, last, cut, hlast, hcut, rfl⟩ := h
  refine ⟨body :: bodies, List.forall_mem_cons.mpr ⟨hbody, hbodies⟩, last, cut, hlast, hcut, ?_⟩
  rw [List.flatMap_cons, List.append_assoc]

/-- A frame is written as its length and its body. -/
theorem Msgque.wire_eq_frame {msg : Msgque} (hdigits : HasFourDigits msg.len)
    (hsized : msg.len ≤ msg.data.readable.length) : msg.wire = frame msg.body ∧ msg.body.length ≤ 9999 := by
  obtain ⟨hlow, hhigh⟩ := hdigits
  have hlength : msg.body.length = msg.len.toNat := by
    rw [Msgque.body, List.length_take]
    omega
  refine ⟨?_, by omega⟩
  rw [Msgque.wire, frame, hlength, Int.toNat_of_nonneg hlow]

/-- What is written of a message, even if its buffer is shorter than it says, is the beginning of a
frame. -/
theorem FrameStream.of_prefix {msg : Msgque} {cut : List Char} (hdigits : HasFourDigits msg.len)
    (hcut : cut <+: msg.wire) : FrameStream cut := by
  obtain ⟨hlow, hhigh⟩ := hdigits
  have hshort : msg.body.length ≤ msg.len.toNat := by
    rw [Msgque.body, List.length_take]
    exact Nat.min_le_left _ _
  let filled := msg.body ++ List.replicate (msg.len.toNat - msg.body.length) 'x'
  have hlength : filled.length = msg.len.toNat := by
    rw [List.length_append, List.length_replicate]
    omega
  refine ⟨[], fun _ h => absurd h List.not_mem_nil, filled, cut, by omega, hcut.trans ?_, rfl⟩
  rw [Msgque.wire, frame, hlength, Int.toNat_of_nonneg hlow, List.prefix_append_right_inj]
  exact List.prefix_append _ _

/-- The empty stream. -/
theorem FrameStream.nil : FrameStream [] :=
  ⟨[], fun _ h => absurd h List.not_mem_nil, [], [], Nat.zero_le _, List.nil_prefix, rfl⟩

/-- A stream of frames begins with a digit. -/
theorem FrameStream.head_isDigit {c : Char} {rest : List Char} (h : FrameStream (c :: rest)) :
    c.isDigit = true := by
  obtain ⟨bodies, hbodies, last, cut, hlast, ⟨behind, hcut⟩, hbytes⟩ := h
  obtain ⟨body, more, more', hfront⟩ : ∃ body more more', c :: rest ++ more = frame body ++ more' := by
    cases bodies with
    | nil => exact ⟨last, behind, [], by rw [hbytes, List.append_nil, ← hcut]; rfl⟩
    | cons body bodies =>
      exact ⟨body, [], bodies.flatMap frame ++ cut, by
        rw [hbytes, List.flatMap_cons, List.append_nil, List.append_assoc]⟩
  have hlen : headerSize ≤ (lengthHeader body.length).length := le_length_printPadded headerSize _
  rw [frame, List.append_assoc] at hfront
  cases hheader : lengthHeader body.length with
  | nil =>
    rw [hheader] at hlen
    exact absurd hlen (by decide)
  | cons d digits =>
    rw [hheader] at hfront
    rw [(List.cons.inj hfront).1]
    apply isDigit_of_mem_printPadded headerSize body.length d
    change d ∈ lengthHeader body.length
    rw [hheader]
    exact List.mem_cons_self

/-- If everything was accepted on one connection, a connection has all of it or nothing. -/
theorem Transfer.OneConnection.acceptedOn {x : Transfer} (h : x.OneConnection) (conn : Connection) :
    x.acceptedOn conn = [] ∨ x.acceptedOn conn = x.accepted := by
  by_cases hsome : ∃ call ∈ x.calls, call.conn = conn ∧ call.accepted ≠ []
  · obtain ⟨call, hmem, hconn, hne⟩ := hsome
    refine Or.inr ?_
    have hother : ∀ calls : List SendCall, (∀ c ∈ calls, c ∈ x.calls) →
        (calls.filter fun c => c.conn = conn).flatMap SendCall.accepted =
          calls.flatMap SendCall.accepted := by
      intro calls hcalls
      induction calls with
      | nil => rfl
      | cons c rest ih =>
        have hrest := ih fun c' hc' => hcalls c' (List.mem_cons_of_mem c hc')
        by_cases hc : c.conn = conn
        · rw [List.filter_cons_of_pos (by simpa using hc), List.flatMap_cons, List.flatMap_cons, hrest]
        · have hnothing : c.accepted = [] := by
            by_contra haccepted
            exact hc ((h c (hcalls c List.mem_cons_self) call hmem haccepted hne).trans hconn)
          rw [List.filter_cons_of_neg (by simpa using hc), List.flatMap_cons, hnothing, List.nil_append, hrest]
    exact hother x.calls fun _ h => h
  · refine Or.inl ?_
    rw [Transfer.acceptedOn, List.flatMap_eq_nil_iff]
    intro call hcall
    obtain ⟨hmem, hconn⟩ := List.mem_filter.mp hcall
    by_contra hne
    exact hsome ⟨call, hmem, by simpa using hconn, hne⟩

/-- Messages of which at most the last is cut off on a connection are a stream of frames there. -/
theorem frameStream_of_transfers (conn : Connection) (finished : List Transfer) (hand : List Transfer)
    (hhand : hand.length ≤ 1) (hbegun : ∀ x ∈ finished ++ hand, x.Begun) (hended : ∀ x ∈ finished, x.Ended)
    (hnotCut : (finished ++ hand).Pairwise Transfer.NotCutBy) :
    FrameStream ((finished ++ hand).flatMap fun x => x.acceptedOn conn) := by
  have hlast (x : Transfer) (hx : x.Begun) : FrameStream (x.acceptedOn conn) := by
    rcases hx.oneConnection.acceptedOn conn with hnone | hall
    · rw [hnone]
      exact FrameStream.nil
    · rw [hall]
      by_cases hempty : x.accepted = []
      · rw [hempty]
        exact FrameStream.nil
      · exact FrameStream.of_prefix (hx.digits hempty) hx.front
  induction finished with
  | nil =>
    match hand, hhand with
    | [], _ => exact FrameStream.nil
    | [x], _ =>
      rw [List.nil_append, List.flatMap_singleton]
      exact hlast x (hbegun x List.mem_cons_self)
  | cons y rest ih =>
    rw [List.cons_append] at hbegun hnotCut ⊢
    obtain ⟨hy, hrest⟩ := List.forall_mem_cons.mp hbegun
    obtain ⟨hcut, hpairs⟩ := List.pairwise_cons.mp hnotCut
    have hbehind := ih hrest (fun x hx => hended x (List.mem_cons_of_mem y hx)) hpairs
    rw [List.flatMap_cons]
    by_cases hnone : y.acceptedOn conn = []
    · rw [hnone, List.nil_append]
      exact hbehind
    by_cases hmore : ∃ z ∈ rest ++ hand, z.acceptedOn conn ≠ []
    · obtain ⟨z, hz, hzne⟩ := hmore
      obtain ⟨hwhole, hsized⟩ := hended y List.mem_cons_self
      have hall := (hy.oneConnection.acceptedOn conn).resolve_left hnone
      rw [hall] at hnone ⊢
      obtain ⟨hframe, hshort⟩ := Msgque.wire_eq_frame (hy.digits hnone) hsized
      rw [hwhole (hcut z hz conn (hall ▸ hnone) hzne), hframe]
      exact hbehind.cons hshort
    · have hnothing : ((rest ++ hand).flatMap fun x => x.acceptedOn conn) = [] := by
        rw [List.flatMap_eq_nil_iff]
        intro z hz
        by_contra hne
        exact hmore ⟨z, hz, hne⟩
      rw [hnothing, List.append_nil]
      exact hlast y hy

/-- What holds of a worker makes its streams streams of frames. -/
theorem SendWorker.Framed.stream {w : SendWorker} (hw : w.Framed) (conn : Connection) :
    FrameStream (w.stream conn) :=
  frameStream_of_transfers conn w.finished _ (by cases w.pc.inHand <;> simp) hw.begun hw.ended hw.notCut

/-- What a connection has accepted of a message after one more call. -/
theorem Transfer.acceptedOn_record (x : Transfer) (call : SendCall) (conn : Connection) :
    (x.record call).acceptedOn conn = x.acceptedOn conn ++ if call.conn = conn then call.accepted else [] := by
  by_cases hconn : call.conn = conn
  · simp [Transfer.record, Transfer.acceptedOn, hconn]
  · simp [Transfer.record, Transfer.acceptedOn, hconn]

/-- A call that accepts bytes only where they belong keeps to the beginning of the frame. -/
theorem Transfer.Begun.record {x : Transfer} {call : SendCall} {rest : List Char} (hx : x.Begun)
    (hprogress : (x.record call).Progress rest) (hharmless : call.accepted ≠ [] → call.result.Harmless)
    (hcond : call.accepted ≠ [] → HasFourDigits x.msg.len ∧ x.Harmless ∧
      ∀ c ∈ x.calls, c.accepted ≠ [] → c.conn = call.conn) : (x.record call).Begun := by
  by_cases hnothing : call.accepted = []
  · have haccepted : (x.record call).accepted = x.accepted := by
      rw [x.accepted_record, hnothing, List.append_nil]
    refine ⟨haccepted ▸ hx.digits, fun a ha b hb hane hbne => ?_, haccepted ▸ hx.front⟩
    have hold (c : SendCall) (hc : c ∈ (x.record call).calls) (hne : c.accepted ≠ []) : c ∈ x.calls := by
      rcases List.mem_append.mp hc with hc | hc
      · exact hc
      · exact absurd hnothing (List.mem_singleton.mp hc ▸ hne)
    exact hx.oneConnection a (hold a ha hane) b (hold b hb hbne) hane hbne
  · obtain ⟨hdigits, hold, hsame⟩ := hcond hnothing
    have hall : (x.record call).Harmless := (x.harmless_record call).mpr ⟨hold, hharmless hnothing⟩
    have hconn (c : SendCall) (hc : c ∈ (x.record call).calls) (hne : c.accepted ≠ []) : c.conn = call.conn := by
      rcases List.mem_append.mp hc with hc | hc
      · exact hsame c hc hne
      · rw [List.mem_singleton.mp hc]
    refine ⟨fun _ => hdigits, fun a ha b hb hane hbne => (hconn a ha hane).trans (hconn b hb hbne).symm, ?_⟩
    rcases hprogress with ⟨_, hwhole⟩ | ⟨hfailed, _⟩
    · exact hwhole ▸ List.prefix_append _ _
    · exact absurd hall hfailed

/-- A step that leaves the messages and their calls keeps what holds of the worker. -/
theorem SendWorker.Framed.keep {w w' : SendWorker} (hw : w.Framed) (htracked : w'.Tracked)
    (hsized : w'.pc.Sized) (htransfers : w'.transfers = w.transfers) (hfinished : w'.finished = w.finished) :
    w'.Framed :=
  ⟨htracked, hsized, htransfers ▸ hw.begun, hfinished ▸ hw.ended, htransfers ▸ hw.notCut⟩

/-- So does a step that puts a message in hand, if it begins where it may. -/
theorem SendWorker.Framed.replace {w w' : SendWorker} (hw : w.Framed) (htracked : w'.Tracked)
    (hsized : w'.pc.Sized) {x : Transfer} (htransfers : w'.transfers = w.finished ++ [x])
    (hfinished : w'.finished = w.finished) (hbegun : x.Begun)
    (hnotCut : ∀ y ∈ w.finished, y.NotCutBy x) : w'.Framed := by
  refine ⟨htracked, hsized, ?_, hfinished ▸ hw.ended, ?_⟩
  · rw [htransfers, List.forall_mem_append, List.forall_mem_singleton]
    exact ⟨fun y hy => hw.begun y (List.mem_append_left _ hy), hbegun⟩
  · rw [htransfers, List.pairwise_append]
    refine ⟨(List.pairwise_append.mp hw.notCut).1, List.pairwise_singleton _ x, fun y hy z hz => ?_⟩
    exact List.mem_singleton.mp hz ▸ hnotCut y hy

/-- A call of `send` that accepts bytes only where they belong keeps what holds of the worker. -/
theorem SendWorker.Framed.call {w w' : SendWorker} (hw : w.Framed) {x : Transfer} {rest left : List Char}
    {conn : Connection} {r : SendResult} (hold : w.transfers = w.finished ++ [x])
    (hhand : w'.pc.inHand = some (x.record ⟨conn, rest, r⟩, left)) (hfinished : w'.finished = w.finished)
    (htracked : w'.Tracked) (hsized : w'.pc.Sized) (hharmless : r.accepted rest ≠ [] → r.Harmless)
    (hcond : r.accepted rest ≠ [] → HasFourDigits x.msg.len ∧ x.Harmless ∧
      (∀ call ∈ x.calls, call.accepted ≠ [] → call.conn = conn) ∧
      ∀ y ∈ w.finished, y.acceptedOn conn ≠ [] → y.Harmless) : w'.Framed := by
  have hmem : x ∈ w.transfers := hold ▸ List.mem_append_right _ List.mem_cons_self
  have hprogress := htracked.progress _ _ hhand
  have htransfers : w'.transfers = w.finished ++ [x.record ⟨conn, rest, r⟩] := by
    rw [SendWorker.transfers, hhand, hfinished]
    rfl
  apply hw.replace htracked hsized htransfers hfinished
  · apply (hw.begun x hmem).record hprogress hharmless
    intro hne
    obtain ⟨hdigits, hall, hsame, _⟩ := hcond hne
    exact ⟨hdigits, hall, hsame⟩
  · intro y hy conn' hyne hne
    have hbefore : y.NotCutBy x :=
      (List.pairwise_append.mp (hold ▸ hw.notCut)).2.2 y hy x List.mem_cons_self
    rw [x.acceptedOn_record] at hne
    by_cases hx : x.acceptedOn conn' = []
    · rw [hx, List.nil_append] at hne
      obtain ⟨rfl, hgiven⟩ := ite_ne_right_iff.mp hne
      exact (hcond hgiven).2.2.2 y hy hyne
    · exact hbefore conn' hyne hx

/-- The body buffer is known to be long enough once the body has been started. -/
theorem SendPc.Sized.sendingOrNext {part : Part} {x : Transfer} (fd : ℤ) (rest : List Char)
    (h : part = .body → x.msg.len ≤ x.msg.data.readable.length) : (sendingOrNext part x fd rest).Sized := by
  unfold TcpClb.sendingOrNext
  cases part with
  | header => split <;> trivial
  | body => split <;> exact h rfl

/-- What a worker has in hand is the last of its messages. -/
theorem SendWorker.transfers_eq {w : SendWorker} {x : Transfer} {rest : List Char}
    (h : w.pc.inHand = some (x, rest)) : w.transfers = w.finished ++ [x] := by
  rw [SendWorker.transfers, h]
  rfl

/-- A step of a send worker that accepts bytes only where they belong keeps the streams framed. -/
theorem SendStep.framed {s s' : Shared F P} {i : ℕ} {c : Con} {w w' : SendWorker} {a : SendAction}
    (hstep : SendStep s i c w a s' w') (hw : w.Framed) (hcond : a.Continues s w) : w'.Framed := by
  have htracked := hstep.tracked hw.tracked
  have hsized := hw.sized
  cases hstep with
  | wait hpc | goOn hpc | wake hpc | up hpc | down hpc | lock hpc | recreate hpc | popNone hpc =>
    exact hw.keep htracked trivial (by rw [SendWorker.transfers, SendWorker.transfers, hpc]; rfl) rfl
  | connect connected hpc =>
    exact hw.keep htracked trivial (by rw [SendWorker.transfers, SendWorker.transfers, hpc]; rfl) rfl
  | @pop q node cell hpc hpop hcell =>
    apply hw.replace htracked trivial rfl rfl
    · exact ⟨fun h => absurd rfl h, fun _ h => absurd h List.not_mem_nil, List.nil_prefix⟩
    · exact fun _ _ _ _ h => absurd rfl h
  | @start part x text hpc htext =>
    have hhand : w.pc.inHand = some (x, part.bytes x.msg ++ part.after x.msg) := by rw [hpc]; rfl
    apply hw.keep htracked _ _ rfl
    · apply SendPc.Sized.sendingOrNext
      rintro rfl
      exact (Option.ite_none_right_eq_some.mp htext).1.2
    · rw [SendWorker.transfers_eq hhand, SendWorker.transfers_eq (inHand_sendingOrNext part x c.fd text)]
  | @sendFails part x fd rest r hpc hsend =>
    have hhand : w.pc.inHand = some (x, rest ++ part.after x.msg) := by rw [hpc]; rfl
    have hnothing := (sendOnce_eq_none hsend).2
    rw [hpc] at hsized
    refine hw.call (SendWorker.transfers_eq hhand) rfl rfl htracked ?_ (absurd hnothing) (absurd hnothing)
    cases part with
    | header => trivial
    | body => exact hsized
  | @send part x fd rest left r hpc hsend =>
    have hhand : w.pc.inHand = some (x, rest ++ part.after x.msg) := by rw [hpc]; rfl
    rw [hpc] at hsized
    refine hw.call (SendWorker.transfers_eq hhand) (inHand_sendingOrNext part _ fd left) rfl htracked ?_
      (fun _ => (sendOnce_eq_some hsend).1) (hcond part x fd rest hpc)
    apply SendPc.Sized.sendingOrNext
    rintro rfl
    exact hsized
  | @failed part x hpc =>
    have hhand : w.pc.inHand = some (x, part.after x.msg) := by rw [hpc]; rfl
    rw [hpc] at hsized
    apply hw.keep htracked _ _ rfl
    · cases part with
      | header => trivial
      | body => exact hsized
    · rw [SendWorker.transfers_eq hhand, SendWorker.transfers_eq (inHand_next part x)]
  | @free x q hpc hfree =>
    have hhand : w.pc.inHand = some (x, []) := by rw [hpc]; rfl
    have htransfers : SendWorker.transfers ⟨.test, w.taken, w.finished ++ [x]⟩ = w.transfers := by
      rw [SendWorker.transfers_eq hhand]
      exact List.append_nil _
    rw [hpc] at hsized
    refine ⟨htracked, trivial, htransfers ▸ hw.begun, ?_, htransfers ▸ hw.notCut⟩
    rw [List.forall_mem_append, List.forall_mem_singleton]
    refine ⟨hw.ended, fun hall => ?_, hsized⟩
    rcases hw.tracked.progress x [] hhand with ⟨_, hwhole⟩ | ⟨hfailed, _⟩
    · exact (List.append_nil _).symm.trans hwhole
    · exact absurd hall hfailed

/-- The same for a step of the system. -/
theorem sysStep_framed {s s' : System F P} {a : Action F P} (hs : ∀ i, (s.send i).Framed)
    (hcond : a.Continues s) (hstep : sysStep s a = some s') : ∀ i, (s'.send i).Framed := by
  cases a with
  | send i b =>
    obtain ⟨c, shared, w, _, hworker, rfl⟩ := sysStep_send hstep
    exact (Function.forall_update_iff s.send fun _ w => w.Framed).mpr
      ⟨hworker.framed (hs i) hcond, fun j _ => hs j⟩
  | recv | append | signal | sweep =>
    intro i
    rcases sysStep_send_eq hstep nofun i with hsame | ⟨hwait, hwoken⟩
    · exact hsame ▸ hs i
    · rw [hwoken]
      exact (hs i).keep (.of_idle rfl) trivial
        (by rw [SendWorker.transfers, SendWorker.transfers, hwait]; rfl) rfl

/-- A worker that has not done anything. -/
theorem SendWorker.Framed.initial : SendWorker.Framed ⟨.test, [], []⟩ :=
  ⟨.of_idle rfl, trivial, fun _ h => absurd h List.not_mem_nil, fun _ h => absurd h List.not_mem_nil,
    List.Pairwise.nil⟩

/-- In a run in which `send` accepts bytes only where they belong, every connection carries complete
frames and at most one truncated frame. -/
theorem streamsFramed_of_continues (cfg : Configurator) (gconnList : List Con) (kernel : Kernel)
    (acts : List (Action F P))
    (hall : EachStep sysStep (fun s a => a.Continues s) (.start cfg gconnList kernel) acts) :
    Throughout sysStep System.StreamsFramed (.start cfg gconnList kernel) acts :=
  throughout_of_eachStep sysStep (fun s a => a.Continues s) (fun s => ∀ i, (s.send i).Framed)
    System.StreamsFramed (fun _ hs i conn => (hs i).stream conn)
    (fun _ _ _ hs hcond hstep => sysStep_framed hs hcond hstep) _ acts (fun _ => .initial) hall

/-- A header is accepted whole on a connection that has carried nothing. -/
theorem oneSend_streamsFramed : Throughout sysStep System.StreamsFramed (twoPeersUp : System Unit Unit)
    [.append 0 ⟨some ['x', '\x00'], 1, 0, 0, oneCharId 'a'⟩ () () ⟨0, 0⟩, .send 0 .test, .send 0 .checkState,
      .send 0 .pop, .send 0 .start, .send 0 (.send (.sent 4))] := by
  apply streamsFramed_of_continues
  apply EachStep.cons rfl trivial
  apply EachStep.cons rfl trivial
  apply EachStep.cons rfl trivial
  apply EachStep.cons rfl trivial
  apply EachStep.cons rfl trivial
  refine EachStep.cons rfl ?_ trivial
  intro part x fd rest hpc _
  cases hpc
  have hdigits : HasFourDigits 1 := ⟨by decide, by decide⟩
  exact ⟨hdigits, fun _ h => absurd h List.not_mem_nil, fun _ h => absurd h List.not_mem_nil,
    fun _ h => absurd h List.not_mem_nil⟩

/-- The header of a message fails on a connection that is lost, and its body is sent after the receive
worker has reconnected. -/
def bodyAfterReconnect : List (Action Unit Unit) :=
  [.append 0 ⟨some ['x', '\x00'], 1, 0, 0, oneCharId 'a'⟩ () () ⟨0, 0⟩, .send 0 .test, .send 0 .checkState,
    .send 0 .pop, .send 0 .start, .recv 0 .test, .recv 0 .call, .recv 0 (.finish [.arrived [] (.other 0)]), .recv 0 .close,
    .send 0 (.send (.failed (.other 9))), .send 0 .failed, .recv 0 .clear, .recv 0 .test, .recv 0 .lock,
    .recv 0 (.recreate 5), .recv 0 (.connect true), .send 0 .start, .send 0 (.send (.sent 1))]

/-- The new connection carries a body without its header. -/
theorem bodyAfterReconnect_not_framed : manage twoPeers bothConnect = some (twoPeersUp : System Unit Unit) ∧
    ¬ Throughout sysStep System.StreamsFramed twoPeersUp bodyAfterReconnect := by
  refine ⟨rfl, fun hall => ?_⟩
  obtain ⟨final, hrun, hstream⟩ : ∃ final, runActions sysStep twoPeersUp bodyAfterReconnect = some final ∧
      (final.send 0).stream ⟨5, 1⟩ = ['x'] := ⟨_, rfl, by decide⟩
  have hframed := throughout_final sysStep _ _ _ _ hall hrun 0 ⟨5, 1⟩
  rw [hstream] at hframed
  exact absurd hframed.head_isDigit (by decide)

end TcpClb

import TcpClb.Common.Runs
import TcpClb.ThreadSteps

/-!
# Noticing the end of a stream

A receive worker notices that its connection is lost by `rc`, which `receive_from_fd` leaves as it
was when the stream has ended. So it does notice if `rc` is still 0 then, and closes the connection
that has ended if the send worker has not put another one in its place by that time. In every other
case it goes on without closing it.
-/

namespace TcpClb

open TcpClb.Common

variable {F P : Type}

/-- Every end of a stream is followed by the close of its connection, the assignment of 0 to
`c->state` and the test of the reconnect loop. -/
def Detects : List RecvEvent → Prop
  | [] => True
  | .returned conn received :: rest =>
    (received = .endOfStream → [.closed conn, .cleared, .tested] <+: rest) ∧ Detects rest
  | _ :: rest => Detects rest

/-- What a worker does next, from where it stands to the test of the reconnect loop. -/
def RecvPc.ahead : RecvPc → List RecvEvent
  | .close (some conn) => [.closed conn, .cleared, .tested]
  | .clear => [.cleared, .tested]
  | .test => [.tested]
  | _ => []

/-- What a worker has done and what it does next. -/
def RecvWorker.history (w : RecvWorker) : List RecvEvent := w.log ++ w.pc.ahead

/-- Every receive worker answers every end of a stream by closing and reconnecting. -/
def System.DetectsEnds (s : System F P) : Prop := ∀ i, Detects (s.recv i).history

/-- The length of the message received last, 0 if there is none. -/
def lastLength (log : List RecvEvent) : ℤ :=
  log.foldl (fun rc e => match e with
    | .returned _ received => received.ret.getD rc
    | _ => rc) 0

/-- A stream does not end after a message that was not empty, and a connection that has ended is
still the one of the entry when it is to be closed. -/
def RecvAction.KeepsUp (s : Shared F P) (c : Con) (w : RecvWorker) : RecvAction → Prop
  | .finish results => (receiveFromFd results).map Prod.fst = some .endOfStream → lastLength w.log = 0
  | .close => ∀ conn, w.pc = .close (some conn) → s.kernel.connection c.fd = conn
  | _ => True

/-- The same for a step of the system. -/
def Action.KeepsUp (s : System F P) : Action F P → Prop
  | .recv i a => ∀ c, s.shared.gconnList[i]? = some c → a.KeepsUp s.shared c (s.recv i)
  | _ => True

/-- `rc` is the length of the last message, and a worker closes a lost connection right after the
end of its stream. -/
structure RecvWorker.Tracked (w : RecvWorker) : Prop where
  rc_eq : w.rc = lastLength w.log
  lost : ∀ conn, w.pc = .close (some conn) → ∃ before, w.log = before ++ [.returned conn .endOfStream]

/-- A history in which every end is answered can be extended by such a history. -/
theorem Detects.append {front extra : List RecvEvent} (hfront : Detects front) (hextra : Detects extra) :
    Detects (front ++ extra) := by
  induction front with
  | nil => exact hextra
  | cons e rest ih =>
    cases e with
    | returned conn received =>
      exact ⟨fun hend => (hfront.1 hend).trans (List.prefix_append rest extra), ih hfront.2⟩
    | tested | called _ | closed _ | cleared => exact ih hfront

/-- The answer to an end of a stream comes before the next return of `receive_from_fd`. -/
theorem detects_append_returned (front : List RecvEvent) (conn : Connection) (received : Received)
    (rest : List RecvEvent) : Detects (front ++ .returned conn received :: rest) ↔
      Detects front ∧ Detects (.returned conn received :: rest) := by
  refine ⟨fun hall => ?_, fun h => h.1.append h.2⟩
  induction front with
  | nil => exact ⟨trivial, hall⟩
  | cons e front ih =>
    cases e with
    | returned conn' received' =>
      obtain ⟨hanswer, hall⟩ := hall
      obtain ⟨hfront, hrest⟩ := ih hall
      refine ⟨⟨fun hend => ?_, hfront⟩, hrest⟩
      obtain ⟨tail, htail⟩ := hanswer hend
      rcases List.append_eq_append_iff.mp htail with ⟨more, hmore, _⟩ | ⟨more, hmore, htail⟩
      · exact ⟨more, hmore.symm⟩
      cases more with
      | nil =>
        rw [List.append_nil] at hmore
        exact ⟨[], by rw [hmore, List.append_nil]⟩
      | cons e more =>
        -- the next return would be one of the three events of the answer
        obtain ⟨rfl, _⟩ := List.cons.inj htail
        have hmem : RecvEvent.returned conn received ∈ [.closed conn', .cleared, .tested] := by
          rw [hmore]
          exact List.mem_append_right front List.mem_cons_self
        simp at hmem
    | tested | called _ | closed _ | cleared => exact ih hall

/-- Events other than a return leave the length of the last message. -/
theorem lastLength_append (log events : List RecvEvent)
    (hquiet : ∀ conn received, .returned conn received ∉ events) :
    lastLength (log ++ events) = lastLength log := by
  induction events generalizing log with
  | nil => rw [List.append_nil]
  | cons e rest ih =>
    have hrest (conn : Connection) (received : Received) : .returned conn received ∉ rest :=
      fun h => hquiet conn received (List.mem_cons_of_mem e h)
    rw [List.append_cons, ih (log ++ [e]) hrest, lastLength, List.foldl_append]
    cases e with
    | returned conn received => exact absurd List.mem_cons_self (hquiet conn received)
    | tested | called _ | closed _ | cleared => rfl

/-- A step that neither returns from `receive_from_fd` nor closes a lost connection only adds to the
history. -/
theorem RecvWorker.Tracked.quiet {w w' : RecvWorker} (hw : w.Tracked) (hdetects : Detects w.history)
    (events extra : List RecvEvent) (hquiet : ∀ conn received, .returned conn received ∉ events)
    (hlog : w'.log = w.log ++ events) (hrc : w'.rc = w.rc) (hpc : ∀ conn, w'.pc ≠ .close (some conn))
    (hhistory : w'.history = w.history ++ extra) (hextra : Detects extra) :
    w'.Tracked ∧ Detects w'.history := by
  refine ⟨⟨?_, fun conn h => absurd h (hpc conn)⟩, hhistory ▸ hdetects.append hextra⟩
  rw [hrc, hlog, lastLength_append w.log events hquiet, hw.rc_eq]

/-- The same for a step that logs nothing. -/
theorem RecvWorker.Tracked.silent {w w' : RecvWorker} (hw : w.Tracked) (hdetects : Detects w.history)
    (extra : List RecvEvent) (hlog : w'.log = w.log) (hrc : w'.rc = w.rc)
    (hpc : ∀ conn, w'.pc ≠ .close (some conn)) (hhistory : w'.history = w.history ++ extra)
    (hextra : Detects extra) : w'.Tracked ∧ Detects w'.history :=
  hw.quiet hdetects [] extra (fun _ _ => List.not_mem_nil) (hlog.trans (List.append_nil w.log).symm) hrc hpc
    hhistory hextra

/-- What a worker does next is not an end of a stream. -/
theorem detects_ahead (pc : RecvPc) : Detects pc.ahead := by
  cases pc with
  | close lost => cases lost <;> trivial
  | test | lock | recreate | connect _ | call | receiving _ | dispatch _ | clear => trivial

/-- A worker is about to close the connection that has ended exactly if `rc` was 0. -/
theorem ahead_switchRc_iff (conn : Connection) (rc : ℤ) :
    [.closed conn, .cleared, .tested] <+: (switchRc conn .endOfStream rc).ahead ↔ rc = 0 := by
  by_cases hrc : rc = 0
  · rw [switchRc, if_pos hrc, if_pos rfl]
    exact iff_of_true (List.prefix_refl _) hrc
  · rw [switchRc, if_neg hrc]
    refine iff_of_false (fun hprefix => ?_) hrc
    have hlen : 3 ≤ 1 := hprefix.length_le
    exact absurd hlen (by decide)

/-- A worker that is about to close a lost connection after `receive_from_fd` has just seen its end. -/
theorem endOfStream_of_switchRc {conn conn' : Connection} {received : Received} {rc : ℤ}
    (h : switchRc conn received rc = .close (some conn')) : received = .endOfStream ∧ conn' = conn := by
  rcases switchRc_cases conn received rc with hclose | htest | ⟨message, hdispatch⟩
  · rw [h, RecvPc.close.injEq] at hclose
    obtain ⟨hend, hconn⟩ := Option.ite_none_right_eq_some.mp hclose.symm
    exact ⟨hend, (Option.some.inj hconn).symm⟩
  · rw [h] at htest
    cases htest
  · rw [h] at hdispatch
    cases hdispatch

/-- A return of `receive_from_fd` is noticed exactly if `rc` is 0 at the end of a stream. -/
theorem detects_return_iff {w : RecvWorker} (hw : w.Tracked) {conn : Connection} {received : Received}
    (hpc : w.pc = .receiving conn) (hdetects : Detects w.history) {w' : RecvWorker}
    (hafter : w' = ⟨switchRc conn received (received.ret.getD w.rc), received.ret.getD w.rc,
      w.log ++ [.returned conn received]⟩) :
    w'.Tracked ∧ (Detects w'.history ↔ (received = .endOfStream → lastLength w.log = 0)) := by
  subst hafter
  have hhistory : w.history = w.log := by
    rw [RecvWorker.history, hpc]
    exact List.append_nil w.log
  rw [hhistory] at hdetects
  refine ⟨⟨?_, fun conn' hclose => ⟨w.log, ?_⟩⟩, ?_⟩
  · rw [lastLength, List.foldl_append, hw.rc_eq]
    rfl
  · obtain ⟨hend, hconn⟩ := endOfStream_of_switchRc hclose
    rw [hend, hconn]
  · rw [RecvWorker.history, List.append_assoc, List.singleton_append, detects_append_returned, Detects,
      and_iff_right hdetects, and_iff_left (detects_ahead _)]
    refine imp_congr_right fun hend => ?_
    rw [← hw.rc_eq, hend]
    exact ahead_switchRc_iff conn w.rc

/-- A lost connection is closed exactly if it is still the one of the entry. -/
theorem detects_close_iff {w : RecvWorker} (hw : w.Tracked) {conn closed : Connection}
    (hpc : w.pc = .close (some conn)) (hdetects : Detects w.history) {w' : RecvWorker}
    (hafter : w' = { w with pc := .clear, log := w.log ++ [.closed closed] }) :
    w'.Tracked ∧ (Detects w'.history ↔ closed = conn) := by
  subst hafter
  obtain ⟨before, hlog⟩ := hw.lost conn hpc
  have hbefore : Detects before := by
    rw [RecvWorker.history, hlog, List.append_assoc, List.singleton_append,
      detects_append_returned] at hdetects
    exact hdetects.1
  refine ⟨⟨?_, nofun⟩, ?_⟩
  · rw [lastLength_append _ _ (fun _ _ h => by simp at h), hw.rc_eq]
  · rw [RecvWorker.history, hlog, List.append_assoc, List.append_assoc, List.singleton_append,
      detects_append_returned, and_iff_right hbefore]
    constructor
    · intro h
      have heq := (h.1 rfl).eq_of_length rfl
      exact (RecvEvent.closed.inj (List.cons.inj heq).1).symm
    · intro h
      rw [h]
      exact ⟨fun _ => List.prefix_refl _, trivial⟩

/-- A step of a receive worker leaves every end of a stream answered exactly if it meets the
condition. -/
theorem RecvStep.detects_iff {s s' : Shared F P} {i : ℕ} {c : Con} {w w' : RecvWorker} {a : RecvAction}
    (hstep : RecvStep s i c w a s' w') (hw : w.Tracked) (hdetects : Detects w.history) :
    w'.Tracked ∧ (Detects w'.history ↔ a.KeepsUp s c w) := by
  have htrivial {Q : Prop} (h : Q ∧ Detects w'.history) : Q ∧ (Detects w'.history ↔ True) :=
    ⟨h.1, iff_of_true h.2 trivial⟩
  cases hstep with
  | finish hpc hreceive =>
    rw [RecvAction.KeepsUp, hreceive, Option.map_some, Option.some.injEq]
    exact detects_return_iff hw hpc hdetects rfl
  | @close lost hpc =>
    cases lost with
    | none =>
      have hcond : RecvAction.close.KeepsUp s c w := fun conn h => by
        rw [hpc] at h
        cases h
      rw [iff_true_intro hcond]
      refine htrivial (hw.quiet hdetects [.closed (s.kernel.connection c.fd)]
        [.closed (s.kernel.connection c.fd), .cleared, .tested] (fun _ _ h => by simp at h) rfl rfl nofun
        ?_ trivial)
      simp [RecvWorker.history, hpc, RecvPc.ahead]
    | some conn =>
      have hcond : RecvAction.close.KeepsUp s c w ↔ s.kernel.connection c.fd = conn := by
        rw [RecvAction.KeepsUp, hpc]
        refine ⟨fun h => h conn rfl, fun h conn' hconn => ?_⟩
        cases hconn
        exact h
      rw [hcond]
      exact detects_close_iff hw hpc hdetects rfl
  | test hpc =>
    refine htrivial (hw.quiet hdetects [.tested] [] (fun _ _ h => by simp at h) rfl rfl ?_ ?_ trivial)
    · intro conn h
      split at h <;> cases h
    · by_cases hstate : c.state = 1 <;> simp [RecvWorker.history, hpc, RecvPc.ahead, hstate]
  | remId tid hpc => exact ⟨hw, iff_of_true hdetects trivial⟩
  | lock hpc hfree =>
    refine htrivial (hw.silent hdetects [] rfl rfl nofun ?_ trivial)
    simp [RecvWorker.history, hpc, RecvPc.ahead]
  | recreate hpc hrecreate =>
    refine htrivial (hw.silent hdetects [] rfl rfl nofun ?_ trivial)
    simp [RecvWorker.history, hpc, RecvPc.ahead]
  | connect connected hpc =>
    refine htrivial (hw.silent hdetects [.tested] rfl rfl nofun ?_ trivial)
    simp [RecvWorker.history, hpc, RecvPc.ahead]
  | call hpc =>
    refine htrivial (hw.quiet hdetects [.called (s.kernel.connection c.fd)] [.called (s.kernel.connection c.fd)]
      (fun _ _ h => by simp at h) rfl rfl nofun ?_ trivial)
    simp [RecvWorker.history, hpc, RecvPc.ahead]
  | dispatched hpc =>
    refine htrivial (hw.silent hdetects [.tested] rfl rfl nofun ?_ trivial)
    simp [RecvWorker.history, hpc, RecvPc.ahead]
  | clear hpc =>
    refine htrivial (hw.quiet hdetects [.cleared] [] (fun _ _ h => by simp at h) rfl rfl nofun ?_ trivial)
    simp [RecvWorker.history, hpc, RecvPc.ahead]

/-- A step of the system leaves every end of a stream answered exactly if it meets the condition. -/
theorem sysStep_detectsEnds_iff {s s' : System F P} (a : Action F P) (hw : ∀ i, (s.recv i).Tracked)
    (hdetects : s.DetectsEnds) (hstep : sysStep s a = some s') :
    (∀ i, (s'.recv i).Tracked) ∧ (s'.DetectsEnds ↔ a.KeepsUp s) := by
  cases a with
  | recv i a =>
    obtain ⟨c, shared, w, hc, hworker, rfl⟩ := sysStep_recv hstep
    obtain ⟨htracked, hiff⟩ := hworker.detects_iff (hw i) (hdetects i)
    have hcond : (Action.recv i a : Action F P).KeepsUp s ↔ a.KeepsUp s.shared c (s.recv i) := by
      rw [Action.KeepsUp, hc]
      refine ⟨fun h => h c rfl, fun h c' hc' => ?_⟩
      cases hc'
      exact h
    constructor
    · exact (Function.forall_update_iff s.recv fun _ w => w.Tracked).mpr ⟨htracked, fun j _ => hw j⟩
    · rw [hcond, ← hiff]
      exact (Function.forall_update_iff s.recv fun _ w => Detects w.history).trans
        (and_iff_left fun j _ => hdetects j)
  | send | append | signal | sweep =>
    have hsame := sysStep_recv_eq hstep nofun
    rw [System.DetectsEnds, hsame]
    exact ⟨hw, iff_of_true hdetects trivial⟩

/-- In a run every end of a stream is answered by closing the connection and reconnecting exactly if
every step meets the condition. -/
theorem detectsEnds_iff (cfg : Configurator) (gconnList : List Con) (kernel : Kernel)
    (acts : List (Action F P)) :
    Throughout sysStep System.DetectsEnds (.start cfg gconnList kernel) acts ↔
      EachStep sysStep (fun s a => a.KeepsUp s) (.start cfg gconnList kernel) acts :=
  throughout_iff_eachStep sysStep (fun s a => a.KeepsUp s) (fun s => ∀ i, (s.recv i).Tracked)
    System.DetectsEnds (fun _ a _ hw hs _ hstep => (sysStep_detectsEnds_iff a hw hs hstep).1)
    (fun _ a _ hw hs hstep => (sysStep_detectsEnds_iff a hw hs hstep).2)
    _ acts (fun _ => ⟨rfl, nofun⟩) fun _ => trivial

/-- A message of one byte is received, and then the stream ends. -/
def endAfterMessage : List (Action Unit Unit) :=
  [.recv 0 .test, .recv 0 .call, .recv 0 (.finish [.arrived ['0', '0', '0', '1', 'x'] (.other 0)]),
    .recv 0 .dispatched, .recv 0 .test, .recv 0 .call, .recv 0 (.finish [.arrived [] (.other 0)])]

/-- The worker goes on as after a message. -/
theorem endAfterMessage_not_detected : manage twoPeers bothConnect = some (twoPeersUp : System Unit Unit) ∧
    ¬ Throughout sysStep System.DetectsEnds twoPeersUp endAfterMessage := by
  refine ⟨rfl, fun hall => ?_⟩
  obtain ⟨final, hrun, before, hhistory⟩ : ∃ final,
      runActions sysStep twoPeersUp endAfterMessage = some final ∧
        ∃ before, (final.recv 0).history = before ++ [.returned ⟨3, 1⟩ .endOfStream, .tested] :=
    ⟨_, rfl, [.tested, .called ⟨3, 1⟩, .returned ⟨3, 1⟩ ⟨some ['x'], some 1⟩, .tested, .called ⟨3, 1⟩], rfl⟩
  have hdetects := throughout_final sysStep _ _ _ _ hall hrun 0
  rw [hhistory, detects_append_returned] at hdetects
  have hlen : 3 ≤ 1 := (hdetects.2.1 rfl).length_le
  exact absurd hlen (by decide)

end TcpClb

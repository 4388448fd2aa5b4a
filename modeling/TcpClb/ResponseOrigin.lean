import TcpClb.Deadlines
import Mathlib.Data.List.Count

/-!
# Where a response callback comes from

Whatever the workers and the clients do at the same time, the callback that a worker invokes for a response is the one
given with the last `sl_send_buf` of its id before the lookup. It gets the parameter of the same call, and the time that
passed from that call to the lookup.
-/

namespace TcpClb

open TcpClb.Common

variable {n : ℕ} {F P : Type}

/-- The id that a call of `sl_send_buf` sends. -/
def RespAction.sentId : RespAction n F P → Option (List Char)
  | .send _ _ req _ _ _ => some req.id.chars
  | _ => none

/-- The worker that makes a step. -/
def RespAction.byWorker : RespAction n F P → Option ℕ
  | .lookup w _ _ => some w
  | .callback w => some w
  | .remove w => some w
  | _ => none

/-- The number of calls of `sl_send_buf`. -/
def sendCount (acts : List (RespAction n F P)) : ℕ := acts.countP fun a => a.sentId.isSome

/-- The last call with this id was given this callback and parameter at this time. The parameter is paired with the
number of the calls before it. -/
def SentLast (acts : List (RespAction n F P)) (tid : List Char) (callbackF : F) (callbackParam : P × ℕ)
    (now : Timeval) : Prop :=
  ∃ before gconnList hlen req after,
    acts = before ++ .send gconnList hlen req callbackF callbackParam.1 now :: after ∧ req.id.chars = tid ∧
      callbackParam.2 = sendCount before ∧ ∀ a ∈ after, a.sentId ≠ some tid

/-- The worker has looked its response up and done nothing else since, and what it has found is what the last call with
the id was given. -/
def Answers (acts : List (RespAction n F P)) (w : ℕ) (tid : List Char) (found : Found F (P × ℕ)) : Prop :=
  ∃ before curr after now, acts = before ++ .lookup w tid curr :: after ∧
    SentLast before tid found.callbackF found.callbackParam now ∧ found.elapsedMsecs = elapsedMsecs now curr ∧
      ∀ a ∈ after, a.byWorker = some w → a = .callback w

/-- Every entry is from the last call with its id, and every response that is handled answers it. -/
structure Responses.Traced (n : ℕ) (acts : List (RespAction n F P)) (s : Responses F P) : Prop where
  inv : s.Inv n
  pushes : s.pushes = sendCount acts
  table : ∀ t e, entryOf s.store.gtsidq t = some e → SentLast acts t e.callbackF e.callbackParam e.aTime
  worker : ∀ w h, s.worker w = some h → Answers acts w h.tid h.found

/-- A step that sends something else leaves the last call with an id the last one. -/
theorem SentLast.snoc {acts : List (RespAction n F P)} {tid : List Char} {callbackF : F} {callbackParam : P × ℕ}
    {now : Timeval} (hs : SentLast acts tid callbackF callbackParam now) {a : RespAction n F P}
    (ha : a.sentId ≠ some tid) : SentLast (acts ++ [a]) tid callbackF callbackParam now := by
  obtain ⟨before, gconnList, hlen, req, after, rfl, hid, hcount, hafter⟩ := hs
  refine ⟨before, gconnList, hlen, req, after ++ [a], by simp, hid, hcount, fun b hb => ?_⟩
  rcases List.mem_append.mp hb with hb | hb
  · exact hafter b hb
  · exact List.mem_singleton.mp hb ▸ ha

/-- Steps of others do not change what a worker answers. -/
theorem Answers.snoc {acts : List (RespAction n F P)} {w : ℕ} {tid : List Char} {found : Found F (P × ℕ)}
    (hs : Answers acts w tid found) {a : RespAction n F P} (ha : a.byWorker = some w → a = .callback w) :
    Answers (acts ++ [a]) w tid found := by
  obtain ⟨before, curr, after, now, rfl, hsent, helapsed, hafter⟩ := hs
  refine ⟨before, curr, after ++ [a], now, by simp, hsent, helapsed, fun b hb => ?_⟩
  rcases List.mem_append.mp hb with hb | hb
  · exact hafter b hb
  · exact List.mem_singleton.mp hb ▸ ha

/-- A push gives the entry of its id the callback, the parameter and the time of the call. -/
theorem renewed_of_pushToMsgq {s s' : Store F P} {gconnList : List Con}
    (hwf : TableWf (getPeers gconnList) s.gtsidq) {tid : List Char} {len : ℤ} {data : Request} {callbackF : F}
    {callbackParam : P} {now : Timeval}
    (hpush : pushToMsgq s gconnList tid len data callbackF callbackParam now = some s') {e' : Tsidque F P}
    (he' : entryOf s'.gtsidq tid = some e') : ∃ e : Tsidque F P, e' = e.renew callbackF callbackParam now := by
  rcases pushToMsgq_eq_some hpush with ⟨hempty, rfl⟩ | ⟨htid, routed, linked, hrouted, _, rfl⟩
  · -- the empty id has no entry
    refine absurd ?_ hwf.nonempty
    rw [← hempty, ← entryOf_isSome_iff, he']
    rfl
  · cases he : entryOf s.gtsidq tid with
    | none =>
      obtain ⟨assigned, _, rfl⟩ := routeId_eq_append htid he hrouted
      have hnew : tid ∉ idsOf s.gtsidq := by
        rw [← entryOf_isSome_iff, he]
        exact Bool.false_ne_true
      rw [entryOf_append_new _ _ _ hnew, if_pos rfl, Option.some.injEq] at he'
      exact ⟨e', by rw [← he']; rfl⟩
    | some e =>
      rw [routeId_eq_update hwf s.glastConRr gconnList tid htid callbackF callbackParam now e he,
        Option.some.injEq] at hrouted
      rw [← hrouted, entryOf_updateFrom, if_pos rfl, he, Option.map_some, Option.some.injEq] at he'
      exact ⟨e, he'.symm⟩

variable {s s' : Responses F P} {acts : List (RespAction n F P)}

/-- A send is the last call with its id. -/
theorem Responses.Traced.send (hs : s.Traced n acts) {gconnList : List Con} {hlen : getPeers gconnList = n}
    {req : Request} {callbackF : F} {callbackParam : P} {now : Timeval}
    (hstep : respStep s (.send gconnList hlen req callbackF callbackParam now) = some s') :
    s'.Traced n (acts ++ [.send gconnList hlen req callbackF callbackParam now]) := by
  have hinv := hs.inv.step _ hstep
  obtain ⟨store, hpush, rfl⟩ := Option.map_eq_some_iff.mp hstep
  have hwf : TableWf (getPeers gconnList) s.store.gtsidq := hlen ▸ hs.inv.wf
  refine ⟨hinv, ?_, fun t e he => ?_, fun w h hw => ?_⟩
  · rw [sendCount, List.countP_append, hs.pushes]
    rfl
  · rcases entryOf_pushToMsgq hwf hpush t e he with ⟨rfl, _⟩ | ⟨ht, he⟩
    · obtain ⟨old, rfl⟩ := renewed_of_pushToMsgq hwf hpush he
      exact ⟨acts, gconnList, hlen, req, [], rfl, rfl, hs.pushes, fun a ha => absurd ha List.not_mem_nil⟩
    · exact (hs.table t e he).snoc fun h => ht (Option.some.inj h).symm
  · exact (hs.worker w h hw).snoc nofun

/-- A lookup copies the entry of its id. -/
theorem Responses.Traced.lookup (hs : s.Traced n acts) {w : ℕ} {tid : List Char} {curr : Timeval}
    (hstep : respStep s (.lookup w tid curr : RespAction n F P) = some s') :
    s'.Traced n (acts ++ [.lookup w tid curr]) := by
  have hinv := hs.inv.step _ hstep
  obtain ⟨hidle, rfl | ⟨found, hfound, rfl⟩⟩ := respStep_lookup hstep
  · refine ⟨hinv, ?_, fun t e he => (hs.table t e he).snoc nofun, fun w' h hw => ?_⟩
    · rw [sendCount, List.countP_append, hs.pushes]
      rfl
    · refine (hs.worker w' h hw).snoc fun hby => ?_
      rw [← Option.some.inj hby, hidle] at hw
      cases hw
  · refine ⟨hinv, ?_, fun t e he => (hs.table t e he).snoc nofun, fun w' h hw => ?_⟩
    · rw [sendCount, List.countP_append, hs.pushes]
      rfl
    · dsimp only at hw
      rw [Function.update_apply] at hw
      split at hw
      · next hw' =>
        subst hw'
        cases hw
        unfold lookupIDIdq at hfound
        obtain ⟨htid, hfound⟩ := Option.ite_none_left_eq_some.mp hfound
        obtain ⟨e, he, rfl⟩ := Option.map_eq_some_iff.mp hfound
        exact ⟨acts, curr, [], e.aTime, rfl, hs.table tid e he, rfl, fun a ha => absurd ha List.not_mem_nil⟩
      · next hne => exact (hs.worker w' h hw).snoc fun hby => absurd (Option.some.inj hby).symm hne

/-- A callback step changes neither the table nor what is answered. -/
theorem Responses.Traced.callback (hs : s.Traced n acts) {w : ℕ}
    (hstep : respStep s (.callback w : RespAction n F P) = some s') : s'.Traced n (acts ++ [.callback w]) := by
  have hinv := hs.inv.step _ hstep
  obtain ⟨tid, found, hw, rfl⟩ := respStep_callback hstep
  refine ⟨hinv, ?_, fun t e he => (hs.table t e he).snoc nofun, fun w' h hw' => ?_⟩
  · rw [sendCount, List.countP_append, hs.pushes]
    rfl
  · dsimp only at hw'
    rw [Function.update_apply] at hw'
    split at hw'
    · next heq =>
      subst heq
      cases hw'
      exact (hs.worker w' _ hw).snoc fun _ => rfl
    · next hne => exact (hs.worker w' h hw').snoc fun hby => absurd (Option.some.inj hby).symm hne

/-- A removal takes one entry away. -/
theorem Responses.Traced.remove (hs : s.Traced n acts) {w : ℕ}
    (hstep : respStep s (.remove w : RespAction n F P) = some s') : s'.Traced n (acts ++ [.remove w]) := by
  have hinv := hs.inv.step _ hstep
  obtain ⟨tid, found, hw, rfl⟩ := respStep_remove hstep
  refine ⟨hinv, ?_, fun t e he => ?_, fun w' h hw' => ?_⟩
  · rw [sendCount, List.countP_append, hs.pushes]
    rfl
  · dsimp only at he
    rw [entryOf_remId _ _ _ hs.inv.wf.distinct] at he
    exact (hs.table t e (Option.ite_none_left_eq_some.mp he).2).snoc nofun
  · dsimp only at hw'
    rw [Function.update_apply] at hw'
    split at hw'
    · cases hw'
    · next hne => exact (hs.worker w' h hw').snoc fun hby => absurd (Option.some.inj hby).symm hne

/-- A sweep only sets flags. -/
theorem Responses.Traced.sweep (hs : s.Traced n acts) {now : ℕ → Timeval} {printable : P → Bool}
    (hstep : respStep s (.sweep now printable : RespAction n F P) = some s') :
    s'.Traced n (acts ++ [.sweep now printable]) := by
  have hinv := hs.inv.step _ hstep
  obtain ⟨_, rfl⟩ := respStep_sweep hstep
  refine ⟨hinv, ?_, fun t e he => ?_, fun w h hw => (hs.worker w h hw).snoc nofun⟩
  · rw [sendCount, List.countP_append, hs.pushes]
    rfl
  · obtain ⟨old, hold, i, _, rfl⟩ := entryOf_of_sweptIdq he
    rw [markExpired_eq]
    exact (hs.table t old hold).snoc nofun

/-- In every run, the callback that a worker is about to invoke for a response is that of the last `sl_send_buf` of the id
before the worker's lookup, with the parameter of the same call and the time from that call to the lookup. -/
theorem callback_fromLastSend {acts : List (RespAction n F P)} {s : Responses F P}
    (hrun : runActions respStep .initial acts = some s) {w : ℕ} {tid : List Char} {found : Found F (P × ℕ)}
    (hw : s.worker w = some ⟨tid, found, false⟩) : Answers acts w tid found := by
  have hstart : Responses.Traced n [] (.initial : Responses F P) :=
    ⟨Responses.initial_inv, rfl, fun _ _ he => (by cases he), fun _ _ hw => (by cases hw)⟩
  refine (history_of_run respStep (fun acts s => s.Traced n acts) (fun done u a next hu hstep => ?_) hstart hrun).worker w
    _ hw
  cases a with
  | send gconnList hlen req callbackF callbackParam now => exact hu.send hstep
  | lookup w tid curr => exact hu.lookup hstep
  | callback w => exact hu.callback hstep
  | remove w => exact hu.remove hstep
  | sweep now printable => exact hu.sweep hstep

/-- Two requests are sent under the same id with different callbacks, and a response to it is looked up. -/
def sentTwice : List (RespAction 1 Bool Unit) :=
  [.send [⟨7, 1, 0⟩] rfl ⟨some ['x', '\x00'], 1, 0, 0, oneCharId 'a'⟩ true () ⟨0, 0⟩,
    .send [⟨7, 1, 0⟩] rfl ⟨some ['y', '\x00'], 1, 0, 0, oneCharId 'a'⟩ false () ⟨1, 0⟩, .lookup 0 ['a'] ⟨2, 0⟩]

/-- The callback of the second request is invoked. -/
theorem sentTwice_fromLastSend : ∃ found, found.callbackF = false ∧ Answers sentTwice 0 ['a'] found := by
  obtain ⟨s, hrun, found, hw, hfound⟩ : ∃ s, runActions respStep .initial sentTwice = some s ∧
      ∃ found, s.worker 0 = some ⟨['a'], found, false⟩ ∧ found.callbackF = false := ⟨_, rfl, _, rfl, rfl⟩
  exact ⟨found, hfound, callback_fromLastSend hrun hw⟩

end TcpClb

import TcpClb.Connections
import TcpClb.EndpointValidation

/-!
# The buffers that endpoints reach

The address of an endpoint is copied to `ip[16]` of an entry by `validateIpPort`, and by `mod_init` to that of
another. Its port is printed to `sndbuf[5]` by the three functions that connect to a peer. The checks look at
the values of the octets and of the port and not at how long their texts are, and a port of five digits is
valid, so both buffers can be too small.
-/

namespace TcpClb

open TcpClb.Common

/-- A round of the loop in `mod_init`: `strcpy` of the address, which has to fit with its terminator, and the
port. -/
def PeerBytes.copy (p : PeerBytes) : Option EndPeers :=
  if (cString p.ip).length < 16 then some ⟨p.port, cString p.ip⟩ else none

/-- `mod_init` up to `manage`. -/
def modInit (config : StubConfig) : Option Configurator :=
  ((List.range config.numPeers.toNat).mapM fun i => (config.peers i).copy).map fun peers =>
    ⟨config.numWorkerThreads, peers⟩

/-- What the calls of `monitor_sock_conn` for one peer return: whether `getsockopt` reports an error, `socket`
and `connect`. -/
structure PeerCheck where
  failed : Bool
  fd : ℤ
  connected : Bool

/-- The round of `monitor_sock_conn` for peer `i`. -/
def monitorPeer (peer : EndPeers) (i : ℕ) (c : Con) (check : PeerCheck) (k : Kernel) : Option (Con × Kernel) :=
  if check.failed then
    if peer.PortFits then
      ((k.close c.fd).socket i check.fd).map fun k =>
        ({ c with fd := check.fd, state := if check.connected then 1 else 0 }, k)
    else none
  else some (c, k)

/-- The three functions that connect to the peer stay inside `sndbuf`: where `socket` returns a descriptor, so do
they. -/
structure EndPeers.Printed (peer : EndPeers) : Prop where
  createPeers : ∀ i start k, 0 ≤ start.fd → (k.socket i start.fd).isSome → (createPeer peer i start k).isSome
  monitorSockConn : ∀ i c check k, ((k.close c.fd).socket i check.fd).isSome →
    (monitorPeer peer i c check k).isSome
  recreateConn : ∀ cfg gconnList k (pid : ℕ) fd, cfg.peers[pid]? = some peer → (k.socket pid fd).isSome →
    (recreateSocket cfg gconnList k pid fd).isSome

/-- What `validateIpPort` stores, and what is made of it, takes no more bytes than there are. -/
structure FitsBuffers (ip : List Char) (port : ℤ) : Prop where
  stored : ip.length + 1 ≤ 16
  copied : ∀ p : PeerBytes, (cString (p.store ip port).ip).length + 1 ≤ 16
  fits : ∀ (p : PeerBytes) peer, (p.store ip port).copy = some peer → peer.PortFits
  printed : ∀ (p : PeerBytes) peer, (p.store ip port).copy = some peer → peer.Printed

/-- The first text between colons has fewer than 16 characters, and the second reads as a number whose last 32
bits are less than 10000. -/
def ShortEndpoint (endpt : List Char) : Prop :=
  ∃ addr text more, tokens (· == ':') endpt = addr :: text :: more ∧ addr.length < 16 ∧
    max (-2 ^ 63) (atoi text) % 2 ^ 32 < 10000

/-- An entry that is copied has its port and the text of its address. -/
theorem PeerBytes.copy_eq_some_iff {p : PeerBytes} {peer : EndPeers} :
    p.copy = some peer ↔ (cString p.ip).length < 16 ∧ peer = ⟨p.port, cString p.ip⟩ := by
  rw [PeerBytes.copy, Option.ite_none_right_eq_some, Option.some.injEq, eq_comm (a := peer)]

/-- They do exactly if the port with its terminator takes at most five bytes. -/
theorem EndPeers.printed_iff (peer : EndPeers) : peer.Printed ↔ peer.PortFits := by
  constructor
  · intro hprinted
    by_contra hfits
    -- on a system without connections descriptor 0 can be made
    have hmade := hprinted.createPeers 0 ⟨0, true, true⟩ .initial le_rfl rfl
    rw [createPeer, if_neg hfits] at hmade
    cases hmade
  · intro hfits
    refine ⟨fun i start k hfd hmade => ?_, fun i c check k hmade => ?_, fun cfg gconnList k pid fd hpeer hmade => ?_⟩
    · obtain ⟨k', hk'⟩ := Option.isSome_iff_exists.mp hmade
      rw [createPeer, if_pos hfits, hk', Option.bind_some, if_neg (Int.not_lt.mpr hfd)]
      split
      · rfl
      · split <;> rfl
    · rw [monitorPeer, if_pos hfits]
      split
      · rw [Option.isSome_map]
        exact hmade
      · rfl
    · obtain ⟨k', hk'⟩ := Option.isSome_iff_exists.mp hmade
      change (cfg.peers[pid]?.bind fun peer => _).isSome = true
      rw [hpeer, Option.bind_some, if_pos hfits, hk']
      rfl

section Accepted

variable {endpt ip : List Char} {port : ℤ}

/-- What `validateIpPort` stores comes from the first two texts between colons. -/
theorem validateIpPort_eq_ok (h : validateIpPort endpt = .ok (ip, port)) :
    ∃ text more, tokens (· == ':') endpt = ip :: text :: more ∧ chkIP ip = true ∧
      chkPort (atoiInt text) = true ∧ port = atoiInt text := by
  rw [validateIpPort] at h
  cases hfirst : strtok (· == ':') endpt with
  | none =>
    rw [hfirst] at h
    cases h
  | some found =>
    obtain ⟨addr, rest⟩ := found
    rw [hfirst] at h
    dsimp only at h
    split at h
    · next haddr =>
      cases hsecond : strtok (· == ':') rest with
      | none =>
        rw [hsecond] at h
        cases h
      | some found =>
        obtain ⟨text, left⟩ := found
        rw [hsecond] at h
        dsimp only at h
        split at h
        · next hport =>
          obtain ⟨rfl, rfl⟩ := Prod.mk.inj (Except.ok.inj h)
          exact ⟨text, _, by rw [tokens_of_strtok hfirst, tokens_of_strtok hsecond], haddr, hport, rfl⟩
        · cases h
    · cases h

/-- A text that `chkIP` accepts is digits and dots. -/
theorem nul_notMem_of_chkIP (h : chkIP ip = true) : '\x00' ∉ ip := by
  intro hmem
  obtain ⟨tok, htok, hnul⟩ := exists_mem_tokens (p := (· == '.')) hmem (by decide)
  have hdigit := (((chkIP_iff ip).mp h).octets tok htok).1 _ hnul
  exact absurd hdigit (by decide)

/-- What string functions see of a stored address: all of it, if there is room for it, and else as much as
there is room for. -/
theorem cString_store (p : PeerBytes) (hnul : '\x00' ∉ ip) : cString (p.store ip port).ip = ip.take 16 := by
  have hplain : ∀ c ∈ ip, decide (c ≠ '\x00') = true := by
    intro c hc
    rw [decide_eq_true_iff]
    rintro rfl
    exact hnul hc
  change ((ip ++ ['\x00']).take 16 ++ p.ip.drop (ip.length + 1)).takeWhile _ = _
  by_cases hroom : ip.length < 16
  · rw [List.take_of_length_le (by rw [List.length_append]; exact hroom), List.append_assoc,
      List.takeWhile_append_of_pos hplain, List.take_of_length_le (Nat.le_of_lt hroom)]
    simp
  · have hgone : p.ip.drop (ip.length + 1) = [] := List.drop_eq_nil_of_le (by rw [p.size]; omega)
    rw [hgone, List.append_nil, List.take_append_of_le_length (Nat.le_of_not_lt hroom)]
    exact List.takeWhile_eq_self_iff.mpr fun c hc => hplain c (List.mem_of_mem_take hc)

/-- A valid port fits exactly if it has at most four digits. -/
theorem portFits_iff (hport : 0 ≤ port) (addr : List Char) :
    EndPeers.PortFits ⟨port, addr⟩ ↔ port < 10000 := by
  obtain ⟨n, rfl⟩ := Int.eq_ofNat_of_zero_le hport
  have hlength := length_printPadded_zero_lt_iff 4 n (by decide)
  change (printPadded 0 n).length < 4 + 1 ↔ _
  rw [hlength]
  omega

/-- An endpoint that is accepted fits the buffers it reaches exactly if its texts are short. -/
theorem fitsBuffers_iff (h : validateIpPort endpt = .ok (ip, port)) :
    FitsBuffers ip port ↔ ShortEndpoint endpt := by
  obtain ⟨text, more, htokens, haddr, hport, rfl⟩ := validateIpPort_eq_ok h
  have hnul := nul_notMem_of_chkIP haddr
  have hrange : 0 ≤ atoiInt text ∧ atoiInt text ≤ 65535 := of_decide_eq_true hport
  have hsmall : atoiInt text < 10000 ↔ max (-2 ^ 63) (atoi text) % 2 ^ 32 < 10000 := by
    have hfits := (atoiInt_range_iff text (k := 65535) (by decide)).mp hrange
    have hdigits := atoiInt_range_iff text (k := 9999) (by decide)
    omega
  constructor
  · intro hfits
    refine ⟨ip, text, more, htokens, Nat.lt_of_succ_le hfits.stored, hsmall.mp ?_⟩
    have hcopied := hfits.copied ⟨0, List.replicate 16 '\x00', List.length_replicate⟩
    have hcopy := PeerBytes.copy_eq_some_iff.mpr ⟨Nat.lt_of_succ_le hcopied, rfl⟩
    exact (portFits_iff hrange.1 _).mp (hfits.fits _ _ hcopy)
  · rintro ⟨addr, text', more', htokens', hroom, hdigits⟩
    rw [htokens] at htokens'
    obtain ⟨rfl, hrest⟩ := List.cons.inj htokens'
    obtain ⟨rfl, rfl⟩ := List.cons.inj hrest
    have hfits : ∀ (p : PeerBytes) peer, (p.store ip (atoiInt text)).copy = some peer → peer.PortFits := by
      intro p peer hcopy
      obtain ⟨-, rfl⟩ := PeerBytes.copy_eq_some_iff.mp hcopy
      exact (portFits_iff hrange.1 _).mpr (hsmall.mpr hdigits)
    refine ⟨hroom, fun p => ?_, hfits, fun p peer hcopy => peer.printed_iff.mpr (hfits p peer hcopy)⟩
    rw [cString_store p hnul, List.length_take]
    omega

/-- An entry that holds an address of digits and dots is copied with it. -/
theorem PeerBytes.Holds.copy {p : PeerBytes} (h : p.Holds ip port) (hnul : '\x00' ∉ ip) :
    p.copy = some ⟨port, ip⟩ := by
  have hroom := h.length_lt
  obtain ⟨⟨rest, hbytes⟩, hport⟩ := h
  have htext : cString p.ip = ip := by
    rw [← hbytes, cString, List.append_assoc, List.takeWhile_append_of_pos]
    · simp
    · intro c hc
      rw [decide_eq_true_iff]
      rintro rfl
      exact hnul hc
  exact PeerBytes.copy_eq_some_iff.mpr ⟨htext.symm ▸ hroom, by rw [htext, hport]⟩

end Accepted

/-- A port of four digits fits. -/
theorem local_fitsBuffers : FitsBuffers "127.0.0.1".toList 7878 :=
  (@fitsBuffers_iff "127.0.0.1:7878".toList _ _ rfl).mpr
    ⟨"127.0.0.1".toList, "7878".toList, [], by decide, by decide, by decide⟩

/-- A port of five digits does not fit, and nor does an address of 16 characters. -/
theorem fiveDigits_not_fitsBuffers :
    validateIpPort "127.0.0.1:10000".toList = .ok ("127.0.0.1".toList, 10000) ∧
      ¬ FitsBuffers "127.0.0.1".toList 10000 ∧
      validateIpPort "0000127.00.00.01:80".toList = .ok ("0000127.00.00.01".toList, 80) ∧
      ¬ FitsBuffers "0000127.00.00.01".toList 80 := by
  refine ⟨rfl, fun h => ?_, rfl, fun h => absurd h.stored (by decide)⟩
  have hcopied := h.copied ⟨0, List.replicate 16 '\x00', List.length_replicate⟩
  have hprinted := h.fits _ _ (PeerBytes.copy_eq_some_iff.mpr ⟨Nat.lt_of_succ_le hcopied, rfl⟩)
  exact absurd ((portFits_iff (by decide) _).mp hprinted) (by decide)

end TcpClb

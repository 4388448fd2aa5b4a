import TcpClb.ConfigText
import TcpClb.EndpointBuffers

/-!
# The round trip of a configuration

A configuration that is written to `tcp_clb.cfg` comes out of `main` and `mod_init` as it was, whatever memory from
`malloc` held before, exactly if the line with the endpoints has less than 1024 characters. One character more, and the
last port loses a digit.
-/

namespace TcpClb

open TcpClb.Common

/-- What `mod_init` passes on for an endpoint. -/
def Endpoint.entry (e : Endpoint) : EndPeers := ⟨(e.port : ℕ), e.address⟩

/-- What `mod_init` passes on for a configuration. -/
def Settings.configurator (c : Settings) : Configurator := ⟨(c.numWorkerThreads : ℕ), c.endpoints.map Endpoint.entry⟩

/-- Reading the file back gives the configuration, whatever memory held. -/
def Settings.RoundTrips (c : Settings) : Prop :=
  ∀ fresh, ∃ s, stubMain fresh c.content = .ok s ∧ modInit s = some c.configurator

/-- A list is made of all values of a function on the first numbers. -/
theorem mapM_range_eq_some_iff {β : Type} {f : ℕ → Option β} {n : ℕ} {bs : List β} :
    (List.range n).mapM f = some bs ↔ n = bs.length ∧ ∀ i b, bs[i]? = some b → f i = some b := by
  have hlist (as : List ℕ) (bs : List β) : as.mapM f = some bs ↔ as.map f = bs.map some := by
    induction as generalizing bs with
    | nil =>
      cases bs with
      | nil => exact iff_of_true rfl rfl
      | cons b bs => exact iff_of_false nofun nofun
    | cons a rest ih =>
      rw [List.mapM_cons]
      cases bs with
      | nil => cases f a <;> cases rest.mapM f <;> simp
      | cons b bs =>
        rw [List.map_cons, List.map_cons, List.cons.injEq, ← ih]
        cases f a <;> cases rest.mapM f <;> simp
  rw [hlist]
  constructor
  · intro heq
    have hlength := congrArg List.length heq
    rw [List.length_map, List.length_range, List.length_map] at hlength
    refine ⟨hlength, fun i b hb => ?_⟩
    have hi : i < n := hlength ▸ (List.getElem?_eq_some_iff.mp hb).1
    have hget := congrArg (fun l => l[i]?) heq
    simpa [hb, hi] using hget
  · rintro ⟨rfl, hall⟩
    refine List.ext_getElem? fun i => ?_
    cases hb : bs[i]? with
    | none =>
      have hle := List.getElem?_eq_none_iff.mp hb
      rw [List.getElem?_map, List.getElem?_map, hb, List.getElem?_eq_none (by rwa [List.length_range])]
      rfl
    | some b =>
      have hi := (List.getElem?_eq_some_iff.mp hb).1
      rw [List.getElem?_map, List.getElem?_map, hb, List.getElem?_range hi, Option.map_some, hall i b hb]
      rfl

section Reading

variable {fresh : FreshMemory} {s t : StubConfig}

/-- The loop over a `GW` line gets to its end if all tokens are endpoints. -/
theorem exists_readPeers {toks : List (List Char)}
    (htoks : ∀ tok ∈ toks, chkCnt tok ':' = 1 ∧ ∃ r, validateIpPort tok = .ok r) (s : StubConfig) :
    ∃ t, toks.foldlM StubConfig.readPeer s = .ok t := by
  induction toks generalizing s with
  | nil => exact ⟨s, rfl⟩
  | cons tok rest ih =>
    obtain ⟨⟨hcolon, r, hvalid⟩, hrest⟩ := List.forall_mem_cons.mp htoks
    obtain ⟨t, ht⟩ := ih hrest (s.storePeer tok r.1 r.2)
    refine ⟨t, (foldlM_cons_eq_ok _ _ _ _).mpr ⟨_, ?_, ht⟩⟩
    rw [StubConfig.readPeer, if_neg (not_not.mpr hcolon), hvalid]
    rfl

/-- Lines without a `G` leave the peers as they are. -/
theorem peers_of_readLines {lines : List (List Char)} (hlines : ∀ line ∈ lines, 'G' ∉ line)
    (hread : lines.foldlM (StubConfig.readLine fresh) s = .ok t) : t.peers = s.peers ∧ t.numPeers = s.numPeers := by
  induction lines generalizing s with
  | nil =>
    cases hread
    exact ⟨rfl, rfl⟩
  | cons line rest ih =>
    obtain ⟨hline, hrest⟩ := List.forall_mem_cons.mp hlines
    obtain ⟨next, hnext, hread⟩ := (foldlM_cons_eq_ok _ _ _ _).mp hread
    have hgw : ¬ chkSubStr line ['G', 'W'] = true := fun h => hline ((of_decide_eq_true h).subset List.mem_cons_self)
    rw [StubConfig.readLine, if_neg hgw] at hnext
    have hsame : next.peers = s.peers ∧ next.numPeers = s.numPeers := by
      split at hnext
      · obtain ⟨n, rfl⟩ := StubConfig.readWT_eq_ok hnext
        exact ⟨rfl, rfl⟩
      · cases hnext
        exact ⟨rfl, rfl⟩
    obtain ⟨hpeers, hnum⟩ := ih hrest hread
    exact ⟨hpeers.trans hsame.1, hnum.trans hsame.2⟩

end Reading

section Lines

variable (c : Settings) (fresh : FreshMemory)

/-- The tokens of the line with the endpoints, where the last of them ends differently or is cut. -/
theorem Settings.gwTokens_eq {rest : List Char} (hequal : '=' ∉ rest) :
    gwTokens (['G', 'W'] ++ '=' :: (c.frontText ++ rest)) =
      c.front.map Endpoint.text ++ tokens (· == ',') rest := by
  have hcomma (e : Endpoint) : ',' ∉ e.text := e.notMem_text (by decide) (by decide) (by decide)
  have hne (e : Endpoint) : e.text ≠ [] := List.append_ne_nil_of_right_ne_nil _ (List.cons_ne_nil _ _)
  have hvalue : '=' ∉ c.frontText ++ rest := by
    simp [Settings.frontText, Endpoint.notMem_text _ (x := '=') (by decide) (by decide) (by decide), hequal]
  rw [gwTokens_key_value (by decide) hvalue, if_neg (List.cons_ne_nil _ _), Settings.frontText]
  refine tokens_flatMap_append (by decide) (fun t ht => ?_) rest
  obtain ⟨e, _, rfl⟩ := List.mem_map.mp ht
  exact ⟨hne e, beq_eq_false_of_notMem (hcomma e)⟩

/-- Every endpoint but the last has its comma. -/
theorem Settings.count_frontText : c.frontText.count ',' = c.front.length := by
  rw [Settings.frontText]
  induction c.front with
  | nil => rfl
  | cons e front ih =>
    have hcomma : e.text.count ',' = 0 :=
      List.count_eq_zero.mpr (e.notMem_text (by decide) (by decide) (by decide))
    rw [List.map_cons, List.flatMap_cons, List.count_append, ih, List.count_append, hcomma, List.length_cons]
    exact Nat.add_comm _ _

/-- The commas of the line with the endpoints. -/
theorem Settings.chkCnt_comma (rest : List Char) :
    chkCnt (['G', 'W'] ++ '=' :: (c.frontText ++ rest)) ',' = c.front.length + chkCnt rest ',' := by
  have hkey : ['G', 'W', '='].count ',' = 0 := by decide
  have htext : ['G', 'W'] ++ '=' :: (c.frontText ++ rest) = ['G', 'W', '='] ++ (c.frontText ++ rest) := rfl
  rw [htext, chkCnt, List.count_append, List.count_append, hkey, c.count_frontText, Nat.zero_add, chkCnt]

/-- A line that begins like this is read as one with endpoints. -/
theorem Settings.readLine_gw {rest : List Char} (hequal : '=' ∉ rest) (s : StubConfig) :
    s.readLine fresh (['G', 'W'] ++ '=' :: (c.frontText ++ rest)) =
      (c.front.map Endpoint.text ++ tokens (· == ',') rest).foldlM StubConfig.readPeer
        (s.allocate fresh (c.front.length + chkCnt rest ',')) := by
  have hgw : chkSubStr (['G', 'W'] ++ '=' :: (c.frontText ++ rest)) ['G', 'W'] = true :=
    decide_eq_true (List.prefix_append _ _).isInfix
  have hcount : chkCnt (['G', 'W'] ++ '=' :: (c.frontText ++ rest)) '=' = 1 := by
    have hfront : '=' ∉ c.frontText := by
      simp [Settings.frontText, Endpoint.notMem_text _ (x := '=') (by decide) (by decide) (by decide)]
    simp [chkCnt, List.count_eq_zero.mpr hfront, List.count_eq_zero.mpr hequal]
  rw [StubConfig.readLine, if_pos hgw, StubConfig.readGW, if_neg (not_not.mpr hcount), c.gwTokens_eq hequal,
    c.chkCnt_comma]

/-- The number of worker threads is read as it was written. -/
theorem Settings.atoiInt_numWorkerThreads :
    atoiInt (printPadded 0 (c.numWorkerThreads : ℕ) ++ ['\n']) = (c.numWorkerThreads : ℕ) := by
  have hnumber : NumberUpTo 32 (printPadded 0 (c.numWorkerThreads : ℕ)) :=
    numberUpTo_printPadded (Nat.le_of_lt_succ c.numWorkerThreads.isLt)
  have hatoi : atoi (printPadded 0 (c.numWorkerThreads : ℕ) ++ ['\n']) = (c.numWorkerThreads : ℕ) := by
    have hnewline : ∀ x ∈ ['\n'].head?, x.isDigit = false := fun x hx => Option.some.inj hx ▸ rfl
    rw [atoi_digits_append hnumber.1 hnumber.2.1 hnewline, ofDigitChars_printPadded]
  have hlow : (0 : ℤ) ≤ (c.numWorkerThreads : ℕ) := Int.natCast_nonneg _
  have hhigh : ((c.numWorkerThreads : ℕ) : ℤ) < 2 ^ 31 := by omega
  rw [← hatoi] at hlow hhigh
  rw [atoiInt_eq_self hlow hhigh, hatoi]

/-- The line with the number of worker threads sets it. -/
theorem Settings.readLine_wt (s : StubConfig) :
    s.readLine fresh (c.wtText ++ ['\n']) = .ok { s with numWorkerThreads := (c.numWorkerThreads : ℕ) } := by
  have hgw : ¬ chkSubStr (c.wtText ++ ['\n']) ['G', 'W'] = true := by
    intro h
    have hmem := (of_decide_eq_true h).subset List.mem_cons_self
    rw [List.mem_append] at hmem
    exact hmem.elim c.notMem_wtText.2.2 (by decide)
  have hwt : chkSubStr (c.wtText ++ ['\n']) ['W', 'T'] = true := by
    refine decide_eq_true (List.IsPrefix.isInfix ?_)
    rw [Settings.wtText, List.append_assoc]
    exact List.prefix_append _ _
  have hnumber : NumberUpTo 32 (printPadded 0 (c.numWorkerThreads : ℕ)) := numberUpTo_printPadded (by omega)
  have hequal : '=' ∉ printPadded 0 (c.numWorkerThreads : ℕ) ++ ['\n'] := by
    rw [List.mem_append, not_or]
    exact ⟨hnumber.not_mem (by decide), by decide⟩
  have htext : c.wtText ++ ['\n'] = ['W', 'T'] ++ '=' :: (printPadded 0 (c.numWorkerThreads : ℕ) ++ ['\n']) := rfl
  have hcount : chkCnt (c.wtText ++ ['\n']) '=' = 1 := by
    have hkey : ['W', 'T'].count '=' = 0 := by decide
    rw [htext, chkCnt, List.count_append, hkey, List.count_cons_self, List.count_eq_zero.mpr hequal]
  rw [StubConfig.readLine, if_neg hgw, if_pos hwt, StubConfig.readWT, if_neg (not_not.mpr hcount), htext,
    strtok_append_cons (by decide) (beq_eq_false_of_notMem (by decide)) rfl]
  dsimp only
  rw [strtok_of_noDelimiter (List.append_ne_nil_of_left_ne_nil hnumber.1 _) (beq_eq_false_of_notMem hequal)]
  dsimp only
  have hwt : chkWT (c.numWorkerThreads : ℕ) = true := decide_eq_true (by omega)
  rw [c.atoiInt_numWorkerThreads, if_pos hwt]

end Lines

section Whole

variable (c : Settings)

/-- The tokens of a whole line are the endpoints, the last of which may end in a newline. -/
theorem Settings.getElem?_tokens {ending : List Char} (hending : ending ∈ [[], ['\n']]) (i : ℕ) {e : Endpoint}
    (he : c.endpoints[i]? = some e) : ∃ tail ∈ [[], ['\n']],
      (c.front.map Endpoint.text ++ [c.last.text ++ ending])[i]? = some (e.text ++ tail) := by
  rw [Settings.endpoints] at he
  rcases Nat.lt_or_ge i c.front.length with hi | hi
  · rw [List.getElem?_append_left hi] at he
    refine ⟨[], by simp, ?_⟩
    rw [List.getElem?_append_left (by rwa [List.length_map]), List.getElem?_map, he, List.append_nil]
    rfl
  · rw [List.getElem?_append_right hi] at he
    refine ⟨ending, hending, ?_⟩
    rw [List.getElem?_append_right (by rwa [List.length_map]), List.length_map]
    obtain ⟨hlt, hget⟩ := List.getElem?_eq_some_iff.mp he
    rw [List.length_singleton, Nat.lt_one_iff] at hlt
    simp only [hlt] at hget ⊢
    rw [← hget]
    rfl

/-- A whole line with the endpoints is accepted, and each entry is stored. -/
theorem Settings.readLine_whole (fresh : FreshMemory) {ending : List Char} (hending : ending ∈ [[], ['\n']]) :
    ∃ t, (StubConfig.initial fresh).readLine fresh (c.gwText ++ ending) = .ok t ∧
      t.numPeers = c.endpoints.length ∧ ∀ i e, c.endpoints[i]? = some e → (t.peers i).Holds e.address e.port := by
  have hnotMem (x : Char) (hdigit : x.isDigit = false) (hdot : x ≠ '.') (hcolon : x ≠ ':') (hnewline : x ≠ '\n') :
      x ∉ c.last.text ++ ending := by
    rw [List.mem_append, not_or]
    refine ⟨c.last.notMem_text hdigit hdot hcolon, ?_⟩
    rcases List.mem_pair.mp hending with rfl | rfl
    · exact List.not_mem_nil
    · exact fun h => hnewline (List.mem_singleton.mp h)
  have hcomma := hnotMem ',' (by decide) (by decide) (by decide) (by decide)
  have hequal := hnotMem '=' (by decide) (by decide) (by decide) (by decide)
  have hne : c.last.text ++ ending ≠ [] := by simp [Endpoint.text]
  have htokens := tokens_of_noDelimiter hne (beq_eq_false_of_notMem hcomma)
  have hcommas : chkCnt (c.last.text ++ ending) ',' = 0 := List.count_eq_zero.mpr hcomma
  obtain ⟨t, ht⟩ : ∃ t, (c.front.map Endpoint.text ++ [c.last.text ++ ending]).foldlM StubConfig.readPeer
      ((StubConfig.initial fresh).allocate fresh c.front.length) = .ok t := by
    refine exists_readPeers (fun tok htok => ?_) _
    obtain ⟨i, hi, hget⟩ := List.getElem_of_mem htok
    have hlength : i < c.endpoints.length := by simpa [Settings.endpoints] using hi
    obtain ⟨tail, htail, htok⟩ := c.getElem?_tokens hending i (List.getElem?_eq_getElem hlength)
    rw [List.getElem?_eq_getElem hi, hget] at htok
    cases htok
    exact ⟨((c.endpoints[i]).validate htail).1, _, ((c.endpoints[i]).validate htail).2⟩
  have hread := StubConfig.readPeers_of_foldlM ht
  have htext : c.gwText ++ ending = ['G', 'W'] ++ '=' :: (c.frontText ++ (c.last.text ++ ending)) := by
    simp [Settings.gwText]
  refine ⟨t, by rw [htext, c.readLine_gw fresh hequal, htokens, hcommas]; exact ht, ?_, fun i e he => ?_⟩
  · rw [hread.numPeers, Settings.endpoints, List.length_append]
    rfl
  · obtain ⟨tail, htail, htok⟩ := c.getElem?_tokens hending i he
    obtain ⟨ip, port, hvalid, _, hstored⟩ := hread.stored i _ htok
    obtain ⟨rfl, rfl⟩ := Prod.mk.inj (Except.ok.inj ((e.validate htail).2.symm.trans hvalid))
    have hindex : ((StubConfig.initial fresh).allocate fresh c.front.length).i + i = i := Nat.zero_add i
    rw [hindex] at hstored
    rw [hstored]
    exact PeerBytes.store_holds _ _ e.length_address_lt

/-- With room for the line with the endpoints, the configuration is read back. -/
theorem Settings.roundTrips (hroom : c.gwText.length < 1024) : c.RoundTrips := by
  intro fresh
  obtain ⟨ending, hending, between, hbetween, hlines⟩ := c.configLines_whole hroom
  obtain ⟨t, hfirst, hnum, hholds⟩ := c.readLine_whole fresh hending
  have hrest : (between ++ [c.wtText ++ ['\n']]).foldlM (StubConfig.readLine fresh) t =
      .ok { t with numWorkerThreads := (c.numWorkerThreads : ℕ) } := by
    have hlast := (foldlM_cons_eq_ok t { t with numWorkerThreads := (c.numWorkerThreads : ℕ) } _ []).mpr
      ⟨_, c.readLine_wt fresh t, rfl⟩
    rcases List.mem_pair.mp hbetween with rfl | rfl
    · exact hlast
    · exact (foldlM_cons_eq_ok _ _ _ _).mpr ⟨t, rfl, hlast⟩
  refine ⟨_, by rw [stubMain, hlines]; exact (foldlM_cons_eq_ok _ _ _ _).mpr ⟨t, hfirst, hrest⟩, ?_⟩
  have hpeers : (List.range t.numPeers.toNat).mapM (fun i => (t.peers i).copy) =
      some (c.endpoints.map Endpoint.entry) := by
    refine mapM_range_eq_some_iff.mpr ⟨by rw [hnum, List.length_map]; rfl, fun i b hb => ?_⟩
    rw [List.getElem?_map] at hb
    obtain ⟨e, he, rfl⟩ := Option.map_eq_some_iff.mp hb
    exact (hholds i e he).copy (nul_notMem_of_chkIP ((chkIP_iff _).mpr e.isAddress.loose))
  rw [modInit]
  change ((List.range t.numPeers.toNat).mapM fun i => (t.peers i).copy).map _ = _
  rw [hpeers]
  rfl

end Whole

section Cut

/-- An endpoint that is cut before its end is not accepted, or with a smaller port. -/
theorem Endpoint.port_ne_of_take (e : Endpoint) {m : ℕ} (hm : m < e.text.length) {ip : List Char} {port : ℤ}
    (hvalid : validateIpPort (e.text.take m) = .ok (ip, port)) : port ≠ (e.port : ℕ) := by
  have haddr : ':' ∉ e.address := e.isAddress.not_mem
  rcases Nat.lt_or_ge e.address.length m with hlong | hshort
  · -- the port is cut
    obtain ⟨j, rfl⟩ : ∃ j, m = e.address.length + (j + 1) := ⟨m - e.address.length - 1, by omega⟩
    have hj : j < e.digits.length := by
      rw [Endpoint.text, List.length_append, List.length_cons] at hm
      omega
    have htext : e.text.take (e.address.length + (j + 1)) = e.address ++ ':' :: e.digits.take j := by
      rw [Endpoint.text, List.take_length_add_append, List.take_succ_cons]
    obtain ⟨_, hdigits, _⟩ := e.numberUpTo_digits
    have hcolon : ':' ∉ e.digits.take j := fun h => e.numberUpTo_digits.not_mem (by decide) (List.take_subset _ _ h)
    rw [htext, validateIpPort_append_cons e.isAddress.loose.ne_nil haddr hcolon,
      if_pos ((chkIP_iff _).mpr e.isAddress.loose)] at hvalid
    split at hvalid
    · cases hvalid
    · next hne =>
      split at hvalid
      · obtain ⟨_, rfl⟩ := Prod.mk.inj (Except.ok.inj hvalid)
        have hvalue : Nat.ofDigitChars 10 e.digits 0 = (e.port : ℕ) := ofDigitChars_printPadded 0 _
        have hpos : 0 < (e.port : ℕ) := by
          have hjpos : 0 < j := Nat.pos_of_ne_zero fun h => hne (by rw [h, List.take_zero])
          have hdigit := (length_printPadded_zero_lt_iff 1 (e.port : ℕ) (by decide)).mpr
          rw [← Endpoint.digits] at hdigit
          omega
        have hlt := atoi_take_lt e.digits j hdigits hj (hvalue ▸ hpos)
        have hread := atoi_of_digits (e.digits.take j) fun c hc => hdigits c (List.take_subset _ _ hc)
        rw [atoiInt_eq_self (by omega) (by omega)]
        omega
      · cases hvalid
  · -- no colon is left
    have htext : e.text.take m = e.address.take m := List.take_append_of_le_length hshort
    have hcolon : ':' ∉ e.address.take m := fun h => haddr (List.take_subset _ _ h)
    rw [htext, validateIpPort] at hvalid
    by_cases hempty : e.address.take m = []
    · rw [hempty] at hvalid
      cases hvalid
    · rw [strtok_of_noDelimiter hempty (beq_eq_false_of_notMem hcolon)] at hvalid
      dsimp only at hvalid
      split at hvalid <;> cases hvalid

variable (c : Settings)

/-- A cut that leaves all commas is in the last endpoint. -/
theorem Settings.length_frontText_le {k : ℕ} (hcount : ((c.frontText ++ c.last.text).take k).count ',' = c.front.length) :
    c.frontText.length ≤ k := by
  by_contra hlt
  have hfront : c.front ≠ [] := by
    rintro hnil
    rw [Settings.frontText, hnil] at hlt
    exact hlt (Nat.zero_le k)
  obtain ⟨before, hbefore⟩ : ∃ before, c.frontText = before ++ [','] := by
    obtain ⟨front, e, he⟩ := (List.eq_nil_or_concat c.front).resolve_left hfront
    exact ⟨(front.map Endpoint.text).flatMap (fun t => t ++ [',']) ++ e.text, by simp [Settings.frontText, he]⟩
  have hk : k ≤ before.length := by
    rw [hbefore, List.length_append, List.length_singleton] at hlt
    omega
  have hsplit := c.count_frontText
  rw [List.take_append_of_le_length (by omega), hbefore, List.take_append_of_le_length hk] at hcount
  rw [hbefore, ← List.take_append_drop k before, List.append_assoc, List.count_append, hcount, List.count_append] at hsplit
  simp at hsplit

/-- Without room for the line with the endpoints, the configuration is not read back: if all peers are counted, the last
one is not stored, or with a smaller port. -/
theorem Settings.not_roundTrips (hlong : 1024 ≤ c.gwText.length) : ¬ c.RoundTrips := by
  intro hround
  obtain ⟨s, hs, hconfig⟩ := hround unsetMemory
  obtain ⟨later, hlines, hlater⟩ := c.configLines_cut hlong
  rw [stubMain, hlines] at hs
  obtain ⟨u, hfirst, hrest⟩ := (foldlM_cons_eq_ok _ _ _ _).mp hs
  obtain ⟨hpeers, hnum⟩ := peers_of_readLines hlater hrest
  obtain ⟨entries, hentries, hcfg⟩ := Option.map_eq_some_iff.mp hconfig
  obtain rfl : entries = c.endpoints.map Endpoint.entry := congrArg Configurator.peers hcfg
  obtain ⟨hlength, hcopy⟩ := mapM_range_eq_some_iff.mp hentries
  rw [List.length_map, Settings.endpoints, List.length_append, List.length_singleton, hnum] at hlength
  have hlast : (u.peers c.front.length).copy = some c.last.entry := by
    rw [← hpeers]
    exact hcopy _ _ (by simp [Settings.endpoints])
  have hcut : c.gwText.take 1023 = ['G', 'W'] ++ '=' :: (c.frontText ++ c.last.text).take 1020 := rfl
  have hgw : chkSubStr (c.gwText.take 1023) ['G', 'W'] = true := by
    rw [hcut]
    exact decide_eq_true (List.prefix_append _ _).isInfix
  have hcommas : chkCnt (c.gwText.take 1023) ',' = ((c.frontText ++ c.last.text).take 1020).count ',' := rfl
  have hcounted : ((c.frontText ++ c.last.text).take 1020).count ',' = c.front.length := by
    have hread := hfirst
    rw [StubConfig.readLine, if_pos hgw] at hread
    have hsize : u.numPeers = chkCnt (c.gwText.take 1023) ',' + 1 := (StubConfig.readGW_eq_ok hread).2.numPeers
    rw [hcommas] at hsize
    omega
  have hshort := c.length_frontText_le hcounted
  obtain ⟨m, hm⟩ : ∃ m, 1020 = c.frontText.length + m := ⟨1020 - c.frontText.length, by omega⟩
  have hmlast : m < c.last.text.length := by
    have htext : c.gwText.length = c.frontText.length + c.last.text.length + 3 := by
      simp [Settings.gwText, Nat.add_assoc]
    omega
  have hnotMem (x : Char) (hdigit : x.isDigit = false) (hdot : x ≠ '.') (hcolon : x ≠ ':') :
      x ∉ c.last.text.take m := fun h => c.last.notMem_text hdigit hdot hcolon (List.take_subset _ _ h)
  have hcomma := hnotMem ',' (by decide) (by decide) (by decide)
  have hequal := hnotMem '=' (by decide) (by decide) (by decide)
  rw [hcut, hm, List.take_length_add_append, c.readLine_gw _ hequal] at hfirst
  have hread := StubConfig.readPeers_of_foldlM hfirst
  by_cases hempty : c.last.text.take m = []
  · -- the last peer is not stored
    have htokens : (c.front.map Endpoint.text ++ tokens (· == ',') (c.last.text.take m)).length = c.front.length := by
      rw [hempty, List.length_append, List.length_map]
      rfl
    have hunset := hread.others c.front.length (Or.inr (by rw [htokens]; exact (Nat.zero_add _).le))
    rw [hunset] at hlast
    cases hlast
  · -- its port is cut
    have htokens : (c.front.map Endpoint.text ++ tokens (· == ',') (c.last.text.take m))[c.front.length]? =
        some (c.last.text.take m) := by
      rw [tokens_of_noDelimiter hempty (beq_eq_false_of_notMem hcomma)]
      simp
    obtain ⟨ip, port, hvalid, _, hstored⟩ := hread.stored _ _ htokens
    have hindex : ((StubConfig.initial unsetMemory).allocate unsetMemory
        (c.front.length + chkCnt (c.last.text.take m) ',')).i + c.front.length = c.front.length := Nat.zero_add _
    rw [hindex] at hstored
    rw [hstored] at hlast
    obtain ⟨_, hentry⟩ := PeerBytes.copy_eq_some_iff.mp hlast
    exact c.last.port_ne_of_take hmlast hvalid (congrArg EndPeers.port hentry).symm

end Cut

/-- A configuration is read back from its file exactly if the line with the endpoints has less than 1024 characters. -/
theorem config_roundTrips_iff (c : Settings) : c.RoundTrips ↔ c.gwText.length < 1024 :=
  ⟨fun hround => Nat.lt_of_not_le fun hlong => c.not_roundTrips hlong hround, fun hroom => c.roundTrips hroom⟩

end TcpClb

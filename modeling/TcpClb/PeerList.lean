import TcpClb.Common.Runs
import TcpClb.PeerConfig

/-!
# The list of peers

The array of peers gets an entry more than the line has commas, each endpoint takes the next index, and the
index goes on over the lines while every line gets an array of its own. So the list is complete exactly if all
endpoints are in the last line with `GW`, and this line has as many as there are entries.
-/

namespace TcpClb

open TcpClb.Common

section Lines

variable {buf key value addr port : List Char}

/-- A text that has a character once has something before and behind it. -/
theorem exists_parts {ch : Char} (h : chkCnt buf ch = 1) : ∃ front rest, buf = front ++ ch :: rest := by
  have hmem : ch ∈ buf := List.count_pos_iff.mp (by rw [chkCnt] at h; omega)
  exact List.append_of_mem hmem

/-- Neither part has that character. -/
theorem notMem_of_chkCnt {ch : Char} (h : chkCnt (key ++ ch :: value) ch = 1) : ch ∉ key ∧ ch ∉ value := by
  rw [chkCnt, List.count_append, List.count_cons_self] at h
  exact ⟨List.count_eq_zero.mp (by omega), List.count_eq_zero.mp (by omega)⟩

/-- The tokens of a line are the endpoints between the commas of its value, unless it has no key. -/
theorem gwTokens_key_value (hkey : '=' ∉ key) (hvalue : '=' ∉ value) :
    gwTokens (key ++ '=' :: value) = if key = [] then [] else tokens (· == ',') value := by
  by_cases hempty : key = []
  · subst hempty
    rw [if_pos rfl, gwTokens, List.nil_append, strtok_cons rfl]
    by_cases hno : value = []
    · subst hno
      rfl
    · rw [strtok_of_noDelimiter hno (beq_eq_false_of_notMem hvalue)]
      rfl
  · rw [if_neg hempty, gwTokens, strtok_append_cons hempty (beq_eq_false_of_notMem hkey) rfl]
    have hsame (text : List Char) (htext : '=' ∉ text) :
        tokens (fun c => c == '=' || c == ',') text = tokens (· == ',') text :=
      tokens_congr fun c hc => by rw [beq_eq_false_of_notMem htext c hc, Bool.false_or]
    change valueTokens value = _
    rw [valueTokens, ← hsame value hvalue]
    cases hfound : strtok (fun c => c == '=' || c == ',') value with
    | none => exact ((tokens_eq_nil_iff _ value).mpr ((strtok_eq_none_iff value).mp hfound)).symm
    | some found =>
      obtain ⟨token, rest⟩ := found
      have hrest : '=' ∉ rest := fun hmem => hvalue ((suffix_of_strtok hfound).subset hmem)
      rw [tokens_of_strtok hfound, hsame rest hrest]

/-- A line has no endpoint exactly if it begins with its `=` or there are only commas behind it. -/
theorem gwTokens_eq_nil_iff (h : chkCnt buf '=' = 1) : gwTokens buf = [] ↔ NoEndpoint buf := by
  have hiff (key value : List Char) (hbuf : buf = key ++ '=' :: value) :
      gwTokens buf = [] ↔ key = [] ∨ ∀ c ∈ value, c = ',' := by
    subst hbuf
    obtain ⟨hkey, hvalue⟩ := notMem_of_chkCnt h
    rw [gwTokens_key_value hkey hvalue]
    by_cases hempty : key = []
    · simp [hempty]
    · rw [if_neg hempty, tokens_eq_nil_iff]
      simp [hempty]
  constructor
  · intro hnone
    obtain ⟨key, value, hbuf⟩ := exists_parts h
    exact ⟨key, value, hbuf, (hiff key value hbuf).mp hnone⟩
  · rintro ⟨key, value, hbuf, hempty⟩
    exact (hiff key value hbuf).mpr hempty

/-- A line has one endpoint more than commas, with addresses that fit, exactly if its key is not empty and has
no comma, and each comma has such an endpoint in front, as has the end. -/
theorem endpointPerComma_iff (h : chkCnt buf '=' = 1) :
    EndpointPerComma buf ↔ (gwTokens buf).length = chkCnt buf ',' + 1 ∧
      ∀ endpt ∈ gwTokens buf, (endpt.takeWhile (· ≠ ':')).length < 16 := by
  have hiff (key value : List Char) (hbuf : buf = key ++ '=' :: value) :
      ((gwTokens buf).length = chkCnt buf ',' + 1 ↔
        key ≠ [] ∧ ',' ∉ key ∧ ∀ endpt ∈ value.splitOn ',', endpt ≠ []) ∧
      (key ≠ [] → (∀ endpt ∈ value.splitOn ',', endpt ≠ []) → gwTokens buf = value.splitOn ',') := by
    subst hbuf
    obtain ⟨hkey, hvalue⟩ := notMem_of_chkCnt h
    rw [gwTokens_key_value hkey hvalue, List.splitOn_eq_splitOnP]
    have hcommas : chkCnt (key ++ '=' :: value) ',' = key.count ',' + value.countP (· == ',') := by
      rw [chkCnt, List.count_append, List.count_cons_of_ne (by decide)]
      rfl
    by_cases hempty : key = []
    · simp [hempty]
    · rw [if_neg hempty, hcommas]
      refine ⟨?_, fun _ hall => tokens_eq_splitOnP hall⟩
      rw [← length_tokens_eq_iff, ← List.count_eq_zero]
      have hle := length_tokens_le (· == ',') value
      constructor
      · intro hlength
        exact ⟨hempty, by omega, by omega⟩
      · rintro ⟨-, hzero, hlength⟩
        omega
  constructor
  · rintro ⟨key, value, hbuf, hkey, hcomma, hpieces⟩
    obtain ⟨hlength, hsplit⟩ := hiff key value hbuf
    have hfull : ∀ endpt ∈ value.splitOn ',', endpt ≠ [] := fun endpt hmem => (hpieces endpt hmem).1
    refine ⟨hlength.mpr ⟨hkey, hcomma, hfull⟩, fun endpt hmem => ?_⟩
    rw [hsplit hkey hfull] at hmem
    exact (hpieces endpt hmem).2
  · rintro ⟨hlength, hfit⟩
    obtain ⟨key, value, hbuf⟩ := exists_parts h
    obtain ⟨hcount, hsplit⟩ := hiff key value hbuf
    obtain ⟨hkey, hcomma, hfull⟩ := hcount.mp hlength
    rw [hsplit hkey hfull] at hfit
    exact ⟨key, value, hbuf, hkey, hcomma, fun endpt hmem => ⟨hfull endpt hmem, hfit endpt hmem⟩⟩

/-- With nothing before the colon, the text behind it is taken for the address. -/
theorem validateIpPort_nil (hport : ':' ∉ port) : validateIpPort (':' :: port) =
    if port = [] then .error .crash else if chkIP port then .error .crash else .error .invalid := by
  rw [validateIpPort, strtok_cons rfl]
  by_cases hempty : port = []
  · subst hempty
    rfl
  · rw [strtok_of_noDelimiter hempty (beq_eq_false_of_notMem hport), if_neg hempty]
    rfl

/-- Else the text before it is the address, and what is behind it the port. -/
theorem validateIpPort_append_cons (hne : addr ≠ []) (haddr : ':' ∉ addr) (hport : ':' ∉ port) :
    validateIpPort (addr ++ ':' :: port) =
      if chkIP addr then
        if port = [] then .error .crash
        else if chkPort (atoiInt port) then .ok (addr, atoiInt port) else .error .invalid
      else .error .invalid := by
  rw [validateIpPort, strtok_append_cons hne (beq_eq_false_of_notMem haddr) rfl]
  dsimp only
  by_cases hempty : port = []
  · subst hempty
    rfl
  · rw [strtok_of_noDelimiter hempty (beq_eq_false_of_notMem hport), if_neg hempty]

/-- The address that `validateIpPort` stores is what stands before the colon. -/
theorem validateIpPort_ip {endpt ip : List Char} {n : ℤ} (hcolon : chkCnt endpt ':' = 1)
    (h : validateIpPort endpt = .ok (ip, n)) : ip = endpt.takeWhile (· ≠ ':') := by
  obtain ⟨addr, port, rfl⟩ := exists_parts hcolon
  obtain ⟨haddr, hport⟩ := notMem_of_chkCnt hcolon
  by_cases hempty : addr = []
  · subst hempty
    rw [List.nil_append, validateIpPort_nil hport] at h
    split at h
    · cases h
    · split at h <;> cases h
  · have hip : ip = addr := by
      rw [validateIpPort_append_cons hempty haddr hport] at h
      split at h
      · split at h
        · cases h
        · split at h
          · cases h
            rfl
          · cases h
      · cases h
    have hbefore : ∀ c ∈ addr, decide (c ≠ ':') = true := by
      intro c hc
      simpa using beq_eq_false_of_notMem haddr c hc
    rw [hip, List.takeWhile_append_of_pos hbefore]
    simp

/-- An entry that holds an address has room for it. -/
theorem PeerBytes.Holds.length_lt {p : PeerBytes} {ip : List Char} {port : ℤ} (h : p.Holds ip port) :
    ip.length < 16 := by
  have hle := h.1.length_le
  rw [p.size, List.length_append, List.length_singleton] at hle
  exact hle

/-- An entry holds what was stored in it if there is room for the address. -/
theorem PeerBytes.store_holds (p : PeerBytes) {ip : List Char} (port : ℤ) (hip : ip.length < 16) :
    (p.store ip port).Holds ip port := by
  refine ⟨?_, rfl⟩
  change ip ++ ['\x00'] <+: (ip ++ ['\x00']).take 16 ++ p.ip.drop (ip.length + 1)
  rw [List.take_of_length_le (by rw [List.length_append]; exact hip)]
  exact List.prefix_append _ _

end Lines

section Reading

variable {fresh : FreshMemory} {s t next : StubConfig} {toks : List (List Char)}

/-- What the loop over a `GW` line does: the endpoints are stored one after the other, from the index on. -/
structure StubConfig.ReadPeers (s : StubConfig) (toks : List (List Char)) (t : StubConfig) : Prop where
  numPeers : t.numPeers = s.numPeers
  allocated : t.allocated = s.allocated
  mallocs : t.mallocs = s.mallocs
  index : t.i = s.i + toks.length
  endpoints : t.endpoints = s.endpoints ++ toks
  stores : ∀ store ∈ t.stores, store ∈ s.stores ∨
    toks ≠ [] ∧ store.1 < s.i + toks.length ∧ store.2 = s.allocated
  others : ∀ k, k < s.i ∨ s.i + toks.length ≤ k → t.peers k = s.peers k
  stored : ∀ a endpt, toks[a]? = some endpt → ∃ ip port, validateIpPort endpt = .ok (ip, port) ∧
    ip = endpt.takeWhile (· ≠ ':') ∧ t.peers (s.i + a) = (s.peers (s.i + a)).store ip port

/-- A round of the loop that does not stop stores an endpoint. -/
theorem StubConfig.readPeer_eq_ok {token : List Char} (h : s.readPeer token = .ok next) :
    ∃ ip port, validateIpPort token = .ok (ip, port) ∧ ip = token.takeWhile (· ≠ ':') ∧
      next = s.storePeer token ip port := by
  rw [StubConfig.readPeer] at h
  by_cases hcolon : chkCnt token ':' = 1
  · rw [if_neg (not_not.mpr hcolon)] at h
    cases hvalid : validateIpPort token with
    | error stop =>
      rw [hvalid] at h
      cases h
    | ok peer =>
      obtain ⟨ip, port⟩ := peer
      rw [hvalid] at h
      cases h
      exact ⟨ip, port, rfl, validateIpPort_ip hcolon hvalid, rfl⟩
  · rw [if_pos hcolon] at h
    cases h

/-- Nothing is read at first. -/
theorem StubConfig.ReadPeers.refl (s : StubConfig) : s.ReadPeers [] s where
  numPeers := rfl
  allocated := rfl
  mallocs := rfl
  index := rfl
  endpoints := (List.append_nil _).symm
  stores := fun _ hmem => .inl hmem
  others := fun _ _ => rfl
  stored := by simp

/-- One more endpoint. -/
theorem StubConfig.ReadPeers.snoc {token ip : List Char} {port : ℤ} (h : s.ReadPeers toks t)
    (hvalid : validateIpPort token = .ok (ip, port)) (hip : ip = token.takeWhile (· ≠ ':')) :
    s.ReadPeers (toks ++ [token]) (t.storePeer token ip port) where
  numPeers := h.numPeers
  allocated := h.allocated
  mallocs := h.mallocs
  index := by
    change t.i + 1 = _
    rw [h.index, List.length_append, List.length_singleton, Nat.add_assoc]
  endpoints := by
    change t.endpoints ++ [token] = _
    rw [h.endpoints, List.append_assoc]
  stores := by
    intro store hmem
    rw [List.length_append, List.length_singleton]
    rcases List.mem_append.mp hmem with hold | hnew
    · rcases h.stores store hold with hfirst | ⟨-, hlt, hsize⟩
      · exact .inl hfirst
      · exact .inr ⟨by simp, by omega, hsize⟩
    · rw [List.mem_singleton.mp hnew]
      refine .inr ⟨by simp, ?_, h.allocated⟩
      rw [h.index]
      omega
  others := by
    intro k hk
    rw [List.length_append, List.length_singleton] at hk
    have hne : k ≠ t.i := by
      rw [h.index]
      omega
    change Function.update t.peers t.i _ k = _
    rw [Function.update_of_ne hne]
    exact h.others k (by omega)
  stored := by
    intro a endpt hget
    change ∃ ip' port', _ ∧ _ ∧ Function.update t.peers t.i _ (s.i + a) = _
    by_cases ha : a < toks.length
    · rw [List.getElem?_append_left ha] at hget
      have hne : s.i + a ≠ t.i := by
        rw [h.index]
        omega
      rw [Function.update_of_ne hne]
      exact h.stored a endpt hget
    · rw [List.getElem?_append_right (Nat.le_of_not_lt ha)] at hget
      have hzero : a - toks.length = 0 := by
        by_contra hpos
        rw [List.getElem?_eq_none (by rw [List.length_singleton]; omega)] at hget
        cases hget
      rw [hzero] at hget
      cases hget
      obtain rfl : a = toks.length := by omega
      refine ⟨ip, port, hvalid, hip, ?_⟩
      rw [← h.index, Function.update_self, h.others t.i (.inr h.index.ge)]

/-- The loop over a `GW` line, if it does not stop. -/
theorem StubConfig.readPeers_of_foldlM (h : toks.foldlM StubConfig.readPeer s = .ok t) : s.ReadPeers toks t := by
  refine foldlM_induction (P := s.ReadPeers) (StubConfig.ReadPeers.refl s) ?_ h
  intro before token u next hu hstep
  obtain ⟨ip, port, hvalid, hip, rfl⟩ := StubConfig.readPeer_eq_ok hstep
  exact hu.snoc hvalid hip

/-- A line with `GW` that does not stop the reading has one `=`, and its endpoints go to a new array. -/
theorem StubConfig.readGW_eq_ok {buf : List Char} (h : s.readGW fresh buf = .ok next) :
    chkCnt buf '=' = 1 ∧ (s.allocate fresh (chkCnt buf ',')).ReadPeers (gwTokens buf) next := by
  rw [StubConfig.readGW] at h
  by_cases hequal : chkCnt buf '=' = 1
  · rw [if_neg (not_not.mpr hequal)] at h
    exact ⟨hequal, StubConfig.readPeers_of_foldlM h⟩
  · rw [if_pos hequal] at h
    cases h

/-- A line with `WT` leaves the peers alone. -/
theorem StubConfig.readWT_eq_ok {buf : List Char} (h : s.readWT buf = .ok next) :
    ∃ n, next = { s with numWorkerThreads := n } := by
  rw [StubConfig.readWT] at h
  split at h
  · cases h
  · split at h
    · cases h
    · split at h
      · cases h
      · split at h
        · cases h
          exact ⟨_, rfl⟩
        · cases h

/-- What holds after lines with `GW` have been read: the array is that of the last one. -/
structure LinesRead (fresh : FreshMemory) (lines : List (List Char)) (s : StubConfig) : Prop where
  index : s.i = s.endpoints.length
  endpoints : s.endpoints = lines.flatMap gwTokens
  mallocs : s.mallocs = lines.length
  oneEqual : ∀ buf ∈ lines, chkCnt buf '=' = 1
  unset : lines = [] → s.numPeers = fresh.numPeers
  size : ∀ earlier last, lines = earlier ++ [last] → s.numPeers = chkCnt last ',' + 1
  untouched : ∀ earlier last, lines = earlier ++ [last] → ∀ k < (earlier.flatMap gwTokens).length,
    s.peers k = fresh.peers earlier.length k
  stored : ∀ earlier last, lines = earlier ++ [last] → ∀ a endpt, (gwTokens last)[a]? = some endpt →
    ∃ ip port p, validateIpPort endpt = .ok (ip, port) ∧ ip = endpt.takeWhile (· ≠ ':') ∧
      s.peers ((earlier.flatMap gwTokens).length + a) = PeerBytes.store p ip port
  stores : ∀ store ∈ s.stores, ∃ earlier buf later, lines = earlier ++ buf :: later ∧ gwTokens buf ≠ [] ∧
    store.1 < ((earlier ++ [buf]).flatMap gwTokens).length ∧ store.2 = chkCnt buf ',' + 1

/-- Nothing is read at first. -/
theorem linesRead_initial (fresh : FreshMemory) : LinesRead fresh [] (StubConfig.initial fresh) where
  index := rfl
  endpoints := rfl
  mallocs := rfl
  oneEqual := by simp
  unset := fun _ => rfl
  size := by simp
  untouched := by simp
  stored := by simp
  stores := by simp [StubConfig.initial]

/-- One more line with `GW`. -/
theorem LinesRead.snoc {lines : List (List Char)} {buf : List Char} (h : LinesRead fresh lines s)
    (hbuf : s.readGW fresh buf = .ok next) : LinesRead fresh (lines ++ [buf]) next := by
  obtain ⟨hequal, hread⟩ := StubConfig.readGW_eq_ok hbuf
  have hindex : (s.allocate fresh (chkCnt buf ',')).i = (lines.flatMap gwTokens).length := by
    change s.i = _
    rw [h.index, h.endpoints]
  have hendpoints : next.endpoints = (lines ++ [buf]).flatMap gwTokens := by
    rw [hread.endpoints, List.flatMap_append, List.flatMap_singleton, ← h.endpoints]
    rfl
  refine ⟨?_, hendpoints, ?_, ?_, by simp, ?_, ?_, ?_, ?_⟩
  · rw [hread.index, hread.endpoints, List.length_append]
    change s.i + _ = s.endpoints.length + _
    rw [h.index]
  · rw [hread.mallocs, List.length_append, ← h.mallocs]
    rfl
  · intro buf' hmem
    rcases List.mem_append.mp hmem with hold | hnew
    · exact h.oneEqual buf' hold
    · rw [List.mem_singleton.mp hnew]
      exact hequal
  · intro earlier last hlast
    obtain ⟨rfl, hsame⟩ := List.append_inj' hlast rfl
    cases hsame
    exact hread.numPeers
  · intro earlier last hlast k hk
    obtain ⟨rfl, -⟩ := List.append_inj' hlast rfl
    rw [hread.others k (.inl (hindex ▸ hk)), ← h.mallocs]
    rfl
  · intro earlier last hlast a endpt hget
    obtain ⟨rfl, hsame⟩ := List.append_inj' hlast rfl
    cases hsame
    obtain ⟨ip, port, hvalid, hip, hpeer⟩ := hread.stored a endpt hget
    rw [hindex] at hpeer
    exact ⟨ip, port, _, hvalid, hip, hpeer⟩
  · intro store hmem
    rcases hread.stores store hmem with hold | ⟨hsome, hlt, hsize⟩
    · obtain ⟨earlier, buf', later, rfl, hrest⟩ := h.stores store hold
      exact ⟨earlier, buf', later ++ [buf], by simp, hrest⟩
    · refine ⟨lines, buf, [], rfl, hsome, ?_, hsize⟩
      rw [hindex] at hlt
      rw [List.flatMap_append, List.flatMap_singleton, List.length_append]
      exact hlt

/-- A line without `GW`. -/
theorem LinesRead.keep {lines : List (List Char)} (h : LinesRead fresh lines s) (n : ℤ) :
    LinesRead fresh lines { s with numWorkerThreads := n } :=
  ⟨h.index, h.endpoints, h.mallocs, h.oneEqual, h.unset, h.size, h.untouched, h.stored, h.stores⟩

/-- What has been read when `mod_init` is reached. -/
theorem linesRead_of_stubMain {content : List Char} (h : stubMain fresh content = .ok s) :
    LinesRead fresh (gwLines content) s := by
  refine foldlM_induction (P := fun before s => LinesRead fresh (before.filter fun buf => chkSubStr buf ['G', 'W']) s)
    (linesRead_initial fresh) ?_ h
  intro before buf s next hs hstep
  rw [StubConfig.readLine] at hstep
  by_cases hgw : chkSubStr buf ['G', 'W'] = true
  · rw [if_pos hgw] at hstep
    have hone : [buf].filter (fun buf => chkSubStr buf ['G', 'W']) = [buf] := by simp [hgw]
    rw [List.filter_append, hone]
    exact hs.snoc hstep
  · rw [if_neg hgw] at hstep
    have hnone : [buf].filter (fun buf => chkSubStr buf ['G', 'W']) = [] := by simp [hgw]
    rw [List.filter_append, hnone, List.append_nil]
    by_cases hwt : chkSubStr buf ['W', 'T'] = true
    · rw [if_pos hwt] at hstep
      obtain ⟨n, rfl⟩ := StubConfig.readWT_eq_ok hstep
      exact hs.keep n
    · rw [if_neg hwt] at hstep
      cases hstep
      exact hs

/-- Whether a line is accepted depends neither on what was read before nor on what memory holds. -/
theorem StubConfig.exists_readLine {fresh' : FreshMemory} {buf : List Char}
    (h : s.readLine fresh buf = .ok next) (s' : StubConfig) : ∃ next', s'.readLine fresh' buf = .ok next' := by
  rw [StubConfig.readLine] at h ⊢
  by_cases hgw : chkSubStr buf ['G', 'W'] = true
  · rw [if_pos hgw] at h ⊢
    obtain ⟨hequal, -⟩ := StubConfig.readGW_eq_ok h
    rw [StubConfig.readGW, if_neg (not_not.mpr hequal)] at h ⊢
    refine exists_foldlM_of_step (fun u u' token v hv => ?_) _ h
    rw [StubConfig.readPeer] at hv ⊢
    by_cases hcolon : chkCnt token ':' = 1
    · rw [if_neg (not_not.mpr hcolon)] at hv ⊢
      cases hvalid : validateIpPort token with
      | error stop =>
        rw [hvalid] at hv
        cases hv
      | ok peer => exact ⟨_, rfl⟩
    · rw [if_pos hcolon] at hv
      cases hv
  · rw [if_neg hgw] at h ⊢
    by_cases hwt : chkSubStr buf ['W', 'T'] = true
    · rw [if_pos hwt] at h ⊢
      rw [StubConfig.readWT] at h ⊢
      split at h
      · cases h
      · next hequal =>
        rw [if_neg hequal]
        split at h
        · cases h
        · split at h
          · cases h
          · split at h
            · next hnum => exact ⟨_, if_pos hnum⟩
            · cases h
    · rw [if_neg hwt]
      exact ⟨s', rfl⟩

/-- Whether a content is accepted does not depend on what memory holds. -/
theorem Accepted.exists_config {content : List Char} (h : Accepted content) (fresh : FreshMemory) :
    ∃ s, stubMain fresh content = .ok s := by
  obtain ⟨fresh', t, ht⟩ := h
  exact exists_foldlM_of_step (f := StubConfig.readLine fresh')
    (fun _ s' _ _ hstep => StubConfig.exists_readLine hstep s') _ ht

/-- Memory in which no entry holds a string, and a number of peers that is not 0. -/
def unsetMemory : FreshMemory := ⟨0, 1, fun _ _ => ⟨0, List.replicate 16 'x', rfl⟩⟩

/-- No address is found in memory that has not been written. -/
theorem unsetMemory_not_holds (j k : ℕ) (ip : List Char) (port : ℤ) :
    ¬ (unsetMemory.peers j k).Holds ip port := by
  intro h
  have hmem : '\x00' ∈ List.replicate 16 'x' := h.1.subset (by simp)
  exact absurd (List.eq_of_mem_replicate hmem) (by decide)

/-- If the list is complete whatever memory held, the last line with `GW` has all endpoints and one per comma
and one more. -/
theorem LinesRead.oneFullLine {content : List Char} (h : LinesRead unsetMemory (gwLines content) s)
    (hcomplete : s.Complete) : OneFullLine content := by
  rcases List.eq_nil_or_concat (gwLines content) with hnone | ⟨earlier, last, hlines⟩
  · have hendpoints := h.endpoints
    have hcounted := hcomplete.counted
    rw [h.unset hnone, hendpoints, hnone] at hcounted
    cases hcounted
  · rw [List.concat_eq_append] at hlines
    have hsize := h.size earlier last hlines
    have hnoneBefore : earlier.flatMap gwTokens = [] := by
      by_contra hsome
      obtain ⟨endpt, ip, port, -, -, hholds⟩ := hcomplete.filled 0 (by rw [hsize]; omega)
      rw [h.untouched earlier last hlines 0 (List.length_pos_iff.mpr hsome)] at hholds
      exact unsetMemory_not_holds _ _ ip port hholds
    have hendpoints : s.endpoints = gwTokens last := by
      rw [h.endpoints, hlines, List.flatMap_append, hnoneBefore, List.flatMap_singleton, List.nil_append]
    have hlength : (gwTokens last).length = chkCnt last ',' + 1 := by
      have hcounted := hcomplete.counted
      rw [hsize, hendpoints] at hcounted
      omega
    refine ⟨earlier, last, hlines, fun buf hmem => ?_, ?_⟩
    · have hequal := h.oneEqual buf (by rw [hlines]; exact List.mem_append_left _ hmem)
      exact (gwTokens_eq_nil_iff hequal).mp (List.flatMap_eq_nil_iff.mp hnoneBefore buf hmem)
    · have hequal := h.oneEqual last (by rw [hlines]; simp)
      refine (endpointPerComma_iff hequal).mpr ⟨hlength, fun endpt hmem => ?_⟩
      obtain ⟨a, hget⟩ := List.mem_iff_getElem?.mp hmem
      have ha : a < (gwTokens last).length := (List.getElem?_eq_some_iff.mp hget).1
      obtain ⟨endpt', ip', port', hget', hvalid', hholds⟩ := hcomplete.filled a (by rw [hsize]; omega)
      rw [hendpoints, hget] at hget'
      cases hget'
      obtain ⟨ip, port, p, hvalid, rfl, -⟩ := h.stored earlier last hlines a endpt hget
      rw [hvalid] at hvalid'
      cases hvalid'
      exact hholds.length_lt

/-- If the last line with `GW` has all endpoints and one per comma and one more, the list is complete. -/
theorem LinesRead.complete {content : List Char} (h : LinesRead fresh (gwLines content) s)
    (hfull : OneFullLine content) : s.Complete := by
  obtain ⟨earlier, last, hlines, hbefore, hlast⟩ := hfull
  have hequal (buf : List Char) (hmem : buf ∈ earlier ++ [last]) : chkCnt buf '=' = 1 :=
    h.oneEqual buf (hlines ▸ hmem)
  have hnone (buf : List Char) (hmem : buf ∈ earlier) : gwTokens buf = [] :=
    (gwTokens_eq_nil_iff (hequal buf (List.mem_append_left _ hmem))).mpr (hbefore buf hmem)
  have hnoneBefore : earlier.flatMap gwTokens = [] := List.flatMap_eq_nil_iff.mpr hnone
  have hendpoints : s.endpoints = gwTokens last := by
    rw [h.endpoints, hlines, List.flatMap_append, hnoneBefore, List.flatMap_singleton, List.nil_append]
  obtain ⟨hlength, hfit⟩ := (endpointPerComma_iff (hequal last (by simp))).mp hlast
  have hsize := h.size earlier last hlines
  refine ⟨?_, fun store hmem => ?_, fun k hk => ?_⟩
  · rw [hsize, hendpoints, hlength]
    rfl
  · obtain ⟨earlier', buf, later, hsplit, hsome, hlt, hstore⟩ := h.stores store hmem
    rw [hlines] at hsplit
    -- A line with endpoints is the last one.
    have hlater : later = [] := by
      rcases List.eq_nil_or_concat later with hnil | ⟨front, end', hend⟩
      · exact hnil
      · rw [hend, List.concat_eq_append, ← List.cons_append, ← List.append_assoc] at hsplit
        obtain ⟨hsame, -⟩ := List.append_inj' hsplit rfl
        exact absurd (hnone buf (by rw [hsame]; simp)) hsome
    rw [hlater] at hsplit
    obtain ⟨rfl, hsame⟩ := List.append_inj' hsplit rfl
    cases hsame
    rw [List.flatMap_append, hnoneBefore, List.flatMap_singleton, List.nil_append, hlength] at hlt
    rw [hstore]
    exact hlt
  · have hlt : k < (gwTokens last).length := by
      rw [hsize] at hk
      omega
    have hget : (gwTokens last)[k]? = some (gwTokens last)[k] := List.getElem?_eq_getElem hlt
    obtain ⟨ip, port, p, hvalid, hip, hpeer⟩ := h.stored earlier last hlines k _ hget
    rw [hnoneBefore, List.length_nil, Nat.zero_add] at hpeer
    refine ⟨_, ip, port, by rw [hendpoints]; exact hget, hvalid, ?_⟩
    rw [hpeer]
    exact p.store_holds port (by rw [hip]; exact hfit _ (List.getElem_mem hlt))

/-- Acceptance can be tested with one content of memory. -/
theorem accepted_iff (content : List Char) : (stubMain unsetMemory content).isOk = true ↔ Accepted content := by
  constructor
  · intro hok
    cases hrun : stubMain unsetMemory content with
    | error stop =>
      rw [hrun] at hok
      cases hok
    | ok s => exact ⟨unsetMemory, s, hrun⟩
  · intro haccepted
    obtain ⟨s, hs⟩ := haccepted.exists_config unsetMemory
    rw [hs]
    rfl

instance (content : List Char) : Decidable (Accepted content) := decidable_of_iff _ (accepted_iff content)

/-- For a content that `main` accepts, the list of peers is complete, whatever memory from `malloc` held, if and
only if the last line with `GW` has an endpoint per comma and one more, with addresses that fit, and the
lines with `GW` before it have none. -/
theorem stubMain_complete_iff (content : List Char) (haccepted : Accepted content) :
    (∀ fresh s, stubMain fresh content = .ok s → s.Complete) ↔ OneFullLine content := by
  constructor
  · intro hcomplete
    obtain ⟨s, hs⟩ := haccepted.exists_config unsetMemory
    exact (linesRead_of_stubMain hs).oneFullLine (hcomplete unsetMemory s hs)
  · exact fun hfull fresh s hs => (linesRead_of_stubMain hs).complete hfull

/-- The configuration file of the repository. -/
def sampleConfig : List Char := "GW=127.0.0.1:80,127.0.0.1:8050\nWT=4\n".toList

/-- The configuration file of the repository is accepted, and its list of peers is complete. -/
theorem sampleConfig_complete :
    Accepted sampleConfig ∧ ∀ fresh s, stubMain fresh sampleConfig = .ok s → s.Complete := by
  have haccepted : Accepted sampleConfig := by decide +kernel
  have hline : gwLines sampleConfig = [] ++ ["GW=127.0.0.1:80,127.0.0.1:8050\n".toList] := by decide +kernel
  have hfull : EndpointPerComma "GW=127.0.0.1:80,127.0.0.1:8050\n".toList :=
    ⟨['G', 'W'], "127.0.0.1:80,127.0.0.1:8050\n".toList, by decide +kernel, by simp, by simp, by decide +kernel⟩
  exact ⟨haccepted, (stubMain_complete_iff sampleConfig haccepted).mpr ⟨[], _, hline, by simp, hfull⟩⟩

/-- Two gateways on lines of their own. -/
def twoLines : List Char := "GW=127.0.0.1:80\nGW=127.0.0.1:81\n".toList

/-- With two lines with `GW` the second entry is stored behind an array of one entry. -/
theorem twoLines_not_complete :
    ∃ s, stubMain unsetMemory twoLines = .ok s ∧ s.stores = [(0, 1), (1, 1)] ∧ ¬ s.Complete := by
  have hstores : (stubMain unsetMemory twoLines).toOption.map StubConfig.stores = some [(0, 1), (1, 1)] := by
    decide +kernel
  cases hrun : stubMain unsetMemory twoLines with
  | error stop =>
    rw [hrun] at hstores
    cases hstores
  | ok s =>
    rw [hrun] at hstores
    have hs : s.stores = [(0, 1), (1, 1)] := Option.some.inj hstores
    refine ⟨s, rfl, hs, fun hcomplete => ?_⟩
    exact absurd (hcomplete.inBounds (1, 1) (by rw [hs]; simp)) (lt_irrefl 1)

end Reading

end TcpClb

import Mathlib.Tactic.Ring
import Sandboxie.Dll.DnsFilter

/-!
# The response fits

The needed size has room for the alignment of the response at any address, and what is written
lies inside of it.  The array of socket addresses and the list of addresses name the entries of the
family that is asked for, in the order of the filter.
-/

namespace Sandboxie.DnsFilter

open Layout List

@[simp] theorem size_remoteOf (v6 : Bool) (entry : IpEntry) :
    (remoteOf v6 entry).size = sockaddrSize v6 := by
  cases v6 <;> rfl

@[simp] theorem size_localOf (v6 : Bool) : (localOf v6).size = sockaddrSize v6 := by
  cases v6 <;> rfl

@[simp] theorem size_addressOf (v6 : Bool) (entry : IpEntry) :
    (addressOf v6 entry).size = addrSize v6 := by
  cases v6 <;> rfl

/-! ### The array of socket addresses -/

/-- What the loop writes for some entries: elements of the array from index `i` on, and socket
addresses from `ptr` on. -/
structure CsAddrs (v6 : Bool) (buf i ptr : Nat) (shown : List IpEntry) (stores : List Store)
    (last : Nat) : Prop where
  ends : last = ptr + shown.length * (sockaddrSize v6 * 2)
  within : ∀ s ∈ stores, (buf + 40 * i ≤ s.1 ∧ s.1 + s.2.size ≤ buf + 40 * (i + shown.length)) ∨
    (ptr ≤ s.1 ∧ s.1 + s.2.size ≤ last)
  apart : buf + 40 * (i + shown.length) ≤ ptr → Apart Value.size stores
  shows : ∀ j entry, shown[j]? = some entry → ∃ remote localAddr,
    (buf + 40 * (i + j), .csaddr (csaddrOf v6 remote localAddr)) ∈ stores ∧
      (remote, remoteOf v6 entry) ∈ stores ∧ (localAddr, localOf v6) ∈ stores

theorem fillCsAddrs_spec (v6 : Bool) (buf : Nat) : ∀ (entries : List IpEntry) (i ptr : Nat),
    CsAddrs v6 buf i ptr (entries.filter (listed v6)) (fillCsAddrs v6 buf i ptr entries).1
      (fillCsAddrs v6 buf i ptr entries).2 := by
  intro entries
  induction entries with
  | nil =>
    intro i ptr
    exact ⟨by simp [fillCsAddrs], nofun, fun _ => List.Pairwise.nil, nofun⟩
  | cons entry rest ih =>
    intro i ptr
    rw [fillCsAddrs]
    by_cases hlisted : listed v6 entry = true
    · rw [if_pos hlisted, filter_cons_of_pos hlisted]
      have h := ih (i + 1) (ptr + sockaddrSize v6 + sockaddrSize v6)
      dsimp only
      generalize fillCsAddrs v6 buf (i + 1) (ptr + sockaddrSize v6 + sockaddrSize v6) rest = r
        at h ⊢
      obtain ⟨stores, last⟩ := r
      dsimp only at h ⊢
      generalize rest.filter (listed v6) = shown at h ⊢
      have hlast := h.ends
      have hmul : (shown.length + 1) * (sockaddrSize v6 * 2) =
          shown.length * (sockaddrSize v6 * 2) + (sockaddrSize v6 + sockaddrSize v6) := by ring
      have hle : ptr + sockaddrSize v6 + sockaddrSize v6 ≤ last := by
        rw [hlast]
        exact Nat.le_add_right _ _
      refine ⟨?_, ?_, ?_, ?_⟩
      · rw [hlast, length_cons, hmul]
        omega
      · intro s hs
        rw [length_cons]
        rcases mem_cons.mp hs with rfl | hs
        · refine Or.inr ⟨le_rfl, ?_⟩
          rw [size_remoteOf]
          omega
        rcases mem_cons.mp hs with rfl | hs
        · refine Or.inr ⟨Nat.le_add_right _ _, ?_⟩
          rw [size_localOf]
          exact hle
        rcases mem_cons.mp hs with rfl | hs
        · refine Or.inl ⟨le_rfl, ?_⟩
          show buf + 40 * i + 40 ≤ _
          omega
        · rcases h.within s hs with hin | hin
          · exact Or.inl ⟨by omega, by omega⟩
          · exact Or.inr ⟨by omega, hin.2⟩
      · intro hroom
        rw [length_cons] at hroom
        have hbehind : ∀ s ∈ stores, (buf + 40 * (i + 1) ≤ s.1 ∧ s.1 + s.2.size ≤ ptr) ∨
            ptr + sockaddrSize v6 + sockaddrSize v6 ≤ s.1 := by
          intro s hs
          rcases h.within s hs with hin | hin
          · exact Or.inl ⟨hin.1, by omega⟩
          · exact Or.inr hin.1
        refine apart_cons.mpr ⟨?_, apart_cons.mpr ⟨?_, apart_cons.mpr ⟨?_, h.apart (by omega)⟩⟩⟩
        · intro s hs
          rw [Beside, size_remoteOf]
          rcases mem_cons.mp hs with rfl | hs
          · exact Or.inl le_rfl
          rcases mem_cons.mp hs with rfl | hs
          · refine Or.inr ?_
            show buf + 40 * i + 40 ≤ ptr
            omega
          · rcases hbehind s hs with hin | hin
            · exact Or.inr hin.2
            · exact Or.inl (by dsimp only; omega)
        · intro s hs
          rw [Beside, size_localOf]
          rcases mem_cons.mp hs with rfl | hs
          · refine Or.inr ?_
            show buf + 40 * i + 40 ≤ ptr + sockaddrSize v6
            omega
          · rcases hbehind s hs with hin | hin
            · exact Or.inr (by dsimp only; omega)
            · exact Or.inl hin
        · intro s hs
          refine Or.inl ?_
          show buf + 40 * i + 40 ≤ s.1
          rcases hbehind s hs with hin | hin
          · omega
          · omega
      · intro j entry' hentry
        cases j with
        | zero =>
          cases hentry
          exact ⟨ptr, ptr + sockaddrSize v6, by simp, by simp, by simp⟩
        | succ j =>
          obtain ⟨remote, localAddr, hcs, hremote, hlocal⟩ := h.shows j entry' hentry
          rw [show i + 1 + j = i + (j + 1) by omega] at hcs
          refine ⟨remote, localAddr, ?_, ?_, ?_⟩
          · simp [hcs]
          · simp [hremote]
          · simp [hlocal]
    · rw [if_neg hlisted, filter_cons_of_neg hlisted]
      exact ih i ptr

/-! ### The list of addresses -/

/-- What the loop writes for some entries: pointers of the list from index `i` on and the null
pointer behind them, and addresses from `ptr` on. -/
structure Addrs (v6 : Bool) (base list i ptr : Nat) (shown : List IpEntry) (stores : List Store)
    (last : Nat) : Prop where
  ends : last = ptr + shown.length * addrSize v6
  within : ∀ s ∈ stores,
    (list + 8 * i ≤ s.1 ∧ s.1 + s.2.size ≤ list + 8 * (i + shown.length + 1)) ∨
      (ptr ≤ s.1 ∧ s.1 + s.2.size ≤ last)
  apart : list + 8 * (i + shown.length + 1) ≤ ptr → Apart Value.size stores
  shows : ∀ j entry, shown[j]? = some entry → ∃ address,
    (list + 8 * (i + j), .pointer (address - base)) ∈ stores ∧
      (address, addressOf v6 entry) ∈ stores ∧ ptr ≤ address ∧ address + addrSize v6 ≤ last
  closes : (list + 8 * (i + shown.length), .pointer 0) ∈ stores

theorem fillAddrList_spec (v6 : Bool) (base list : Nat) : ∀ (entries : List IpEntry) (i ptr : Nat),
    Addrs v6 base list i ptr (entries.filter (listed v6))
      (fillAddrList v6 base list i ptr entries).1 (fillAddrList v6 base list i ptr entries).2 := by
  intro entries
  induction entries with
  | nil =>
    intro i ptr
    refine ⟨by simp [fillAddrList], fun s hs => ?_, fun _ => ?_, nofun, by simp [fillAddrList]⟩
    · obtain rfl := mem_singleton.mp hs
      exact Or.inl ⟨le_rfl, le_rfl⟩
    · exact pairwise_singleton _ _
  | cons entry rest ih =>
    intro i ptr
    rw [fillAddrList]
    by_cases hlisted : listed v6 entry = true
    · rw [if_pos hlisted, filter_cons_of_pos hlisted]
      have h := ih (i + 1) (ptr + addrSize v6)
      generalize fillAddrList v6 base list (i + 1) (ptr + addrSize v6) rest = r at h ⊢
      obtain ⟨stores, last⟩ := r
      dsimp only at h ⊢
      generalize rest.filter (listed v6) = shown at h ⊢
      have hlast := h.ends
      have hmul : (shown.length + 1) * addrSize v6 = shown.length * addrSize v6 + addrSize v6 :=
        Nat.succ_mul _ _
      have hle : ptr + addrSize v6 ≤ last := by
        rw [hlast]
        exact Nat.le_add_right _ _
      refine ⟨?_, ?_, ?_, ?_, ?_⟩
      · rw [hlast, length_cons, hmul]
        omega
      · intro s hs
        rw [length_cons]
        rcases mem_cons.mp hs with rfl | hs
        · refine Or.inl ⟨le_rfl, ?_⟩
          show list + 8 * i + 8 ≤ _
          omega
        rcases mem_cons.mp hs with rfl | hs
        · refine Or.inr ⟨le_rfl, ?_⟩
          rw [size_addressOf]
          exact hle
        · rcases h.within s hs with hin | hin
          · exact Or.inl ⟨by omega, by omega⟩
          · exact Or.inr ⟨by omega, hin.2⟩
      · intro hroom
        rw [length_cons] at hroom
        refine apart_cons.mpr ⟨?_, apart_cons.mpr ⟨?_, h.apart (by omega)⟩⟩
        · intro s hs
          refine Or.inl ?_
          show list + 8 * i + 8 ≤ s.1
          rcases mem_cons.mp hs with rfl | hs
          · show _ ≤ ptr
            omega
          · rcases h.within s hs with hin | hin
            · omega
            · omega
        · intro s hs
          rw [Beside, size_addressOf]
          rcases h.within s hs with hin | hin
          · exact Or.inr (by dsimp only; omega)
          · exact Or.inl hin.1
      · intro j entry' hentry
        cases j with
        | zero =>
          cases hentry
          exact ⟨ptr, by simp, by simp, le_rfl, hle⟩
        | succ j =>
          obtain ⟨address, hpointer, haddress, hge, hend⟩ := h.shows j entry' hentry
          rw [show i + 1 + j = i + (j + 1) by omega] at hpointer
          refine ⟨address, ?_, ?_, by omega, hend⟩
          · simp [hpointer]
          · simp [haddress]
      · have hcloses := h.closes
        rw [show i + 1 + shown.length = i + (shown.length + 1) by omega] at hcloses
        rw [length_cons]
        simp [hcloses]
    · rw [if_neg hlisted, filter_cons_of_neg hlisted]
      exact ih i ptr

/-! ### The whole response -/

/-- **A response that answers the query:** behind the results structure, and through it, stand the
array of socket addresses and the `HOSTENT` blob, and both name the entries that are shown, in
their order. -/
structure Answers (v6 : Bool) (shown : List IpEntry) (name : List WChar) (hostName : List UInt8)
    (results : Nat) (stores : List Store) (q : QuerySet) (cbSize blobData : Nat) (h : Hostent) :
    Prop where
  query : (results, .query q) ∈ stores
  instanceName : (q.lpszServiceInstanceName, .wide name) ∈ stores
  queryString : (q.lpszQueryString, .wide name) ∈ stores
  count : q.dwNumberOfCsAddrs = shown.length
  csaddrs : ∀ j entry, shown[j]? = some entry → ∃ remote localAddr,
    (q.lpcsaBuffer + 40 * j, .csaddr (csaddrOf v6 remote localAddr)) ∈ stores ∧
      (remote, remoteOf v6 entry) ∈ stores ∧ (localAddr, localOf v6) ∈ stores
  blob : (q.lpBlob, .blob cbSize blobData) ∈ stores
  hostent : (blobData, .hostent h) ∈ stores
  ansiName : (blobData + h.h_name, .narrow hostName) ∈ stores
  aliases : (blobData + h.h_aliases, .pointer 0) ∈ stores
  addrs : ∀ j entry, shown[j]? = some entry → ∃ offset,
    (blobData + h.h_addr_list + 8 * j, .pointer offset) ∈ stores ∧
      (blobData + offset, addressOf v6 entry) ∈ stores ∧ offset + addrSize v6 ≤ cbSize
  addrsEnd : (blobData + h.h_addr_list + 8 * shown.length, .pointer 0) ∈ stores
  offsets : h.h_name + hostName.length ≤ cbSize ∧ h.h_aliases + 8 ≤ cbSize ∧
    h.h_addr_list + 8 * (shown.length + 1) ≤ cbSize

/-- **The response fits the needed size at any address,** no two values of it overlap, and it
answers the query. -/
theorem layOut_spec (v6 : Bool) (nameSpace : Nat) (name : List WChar) (hostName : List UInt8)
    (entries : List IpEntry) (results : Nat) :
    (layOut v6 nameSpace name hostName entries results).2 ≤ results +
        neededSize v6 name.length hostName.length (entries.filter (listed v6)).length ∧
      Within Value.size results (layOut v6 nameSpace name hostName entries results).2
        (layOut v6 nameSpace name hostName entries results).1 ∧
      Apart Value.size (layOut v6 nameSpace name hostName entries results).1 ∧
      ∃ q cbSize blobData h, Answers v6 (entries.filter (listed v6)) name hostName results
        (layOut v6 nameSpace name hostName entries results).1 q cbSize blobData h := by
  rw [layOut]
  generalize hbuf : results + 120 + (name.length + 1) * 2 + (name.length + 1) * 2 = buf
  have hcs := fillCsAddrs_spec v6 buf entries 0
    (buf + (entries.filter (listed v6)).length * 40)
  generalize fillCsAddrs v6 buf 0 (buf + (entries.filter (listed v6)).length * 40) entries = r
    at hcs ⊢
  obtain ⟨csaddrs, csEnd⟩ := r
  dsimp only at hcs ⊢
  generalize hblob : alignUp 8 csEnd = lpBlob
  generalize haliases : alignUp 8 (lpBlob + 16 + 32 + hostName.length) = aliases
  generalize hlist : alignUp 8 (aliases + 8) = list
  have haddr := fillAddrList_spec v6 (lpBlob + 16) list entries 0
    (list + ((entries.filter (listed v6)).length + 1) * 8)
  generalize fillAddrList v6 (lpBlob + 16) list 0
    (list + ((entries.filter (listed v6)).length + 1) * 8) entries = r at haddr ⊢
  obtain ⟨addrs, last⟩ := r
  generalize entries.filter (listed v6) = shown at hcs haddr ⊢
  -- where everything stands
  have hcsEnd := hcs.ends
  have hlast := haddr.ends
  have hblobGe : csEnd ≤ lpBlob := hblob ▸ le_alignUp (by decide) csEnd
  have hblobLe : lpBlob ≤ csEnd + 7 := hblob ▸ alignUp_le 8 csEnd
  have haliasesGe : lpBlob + 16 + 32 + hostName.length ≤ aliases :=
    haliases ▸ le_alignUp (by decide) _
  have haliasesLe : aliases ≤ lpBlob + 16 + 32 + hostName.length + 7 := haliases ▸ alignUp_le 8 _
  have hlistEq : list = aliases + 8 := by
    have hdvd : 8 ∣ aliases := haliases ▸ dvd_alignUp 8 _
    rw [← hlist]
    exact alignUp_of_dvd (by decide) (Nat.dvd_add hdvd (Nat.dvd_refl 8))
  have hfront := le_alignUp (p := 8) (by decide) (frontSize v6 name.length shown.length)
  have hcsIn : Within Value.size buf csEnd csaddrs := by
    intro s hs
    rcases hcs.within s hs with hin | hin
    · exact ⟨by omega, by omega⟩
    · exact ⟨by omega, hin.2⟩
  have haddrIn : Within Value.size list last addrs := by
    intro s hs
    rcases haddr.within s hs with hin | hin
    · exact ⟨by omega, by omega⟩
    · exact ⟨by omega, hin.2⟩
  generalize hquery : (Value.query _) = query
  generalize hhostent : (Value.hostent _) = hostent
  have hquerySize : query.size = 120 := hquery ▸ rfl
  have hhostentSize : hostent.size = 32 := hhostent ▸ rfl
  have hwide : (Value.wide name).size = (name.length + 1) * 2 := rfl
  have hhead : Stacked Value.size results [(results, query), (results + 120, .wide name),
      (results + 120 + (name.length + 1) * 2, .wide name)] buf := by
    simp only [Stacked, hquerySize, hwide]
    omega
  have htail : Stacked Value.size csEnd
      [(lpBlob, .blob (blobSize v6 hostName.length shown.length) (lpBlob + 16)),
        (lpBlob + 16, hostent), (lpBlob + 16 + 32, .narrow hostName), (aliases, .pointer 0)]
      list := by
    have hblobSize : ∀ c d, (Value.blob c d).size = 16 := fun _ _ => rfl
    have hnarrow : (Value.narrow hostName).size = hostName.length := rfl
    have hpointer : (Value.pointer 0).size = 8 := rfl
    simp only [Stacked, hblobSize, hhostentSize, hnarrow, hpointer]
    omega
  have hcsBuf : buf ≤ csEnd := by omega
  have hfrontIn := within_append.mpr ⟨hhead.within.mono le_rfl hcsBuf, hcsIn.mono (by omega) le_rfl⟩
  have hallIn := within_append.mpr
    ⟨hfrontIn.mono le_rfl htail.le, htail.within.mono (by omega) le_rfl⟩
  refine ⟨?_, ?_, ?_, ?_⟩
  · rw [neededSize, blobSize]
    rw [frontSize] at hfront ⊢
    omega
  · exact within_append.mpr ⟨hallIn.mono le_rfl (by omega), haddrIn.mono (by omega) le_rfl⟩
  · have hfrontApart := hhead.apart.append (hcs.apart (by omega)) hhead.within hcsIn
    have hallApart := hfrontApart.append htail.apart hfrontIn htail.within
    exact hallApart.append (haddr.apart (by omega)) hallIn haddrIn
  generalize hstores : (_ ++ addrs) = stores
  -- an offset and the base give the address again
  have hname : lpBlob + 16 + (lpBlob + 16 + 32 - (lpBlob + 16)) = lpBlob + 16 + 32 := by omega
  have hali : lpBlob + 16 + (aliases - (lpBlob + 16)) = aliases := by omega
  have hlst : lpBlob + 16 + (list - (lpBlob + 16)) = list := by omega
  have hblobSize : blobSize v6 hostName.length shown.length =
      32 + hostName.length + 7 + 8 + 7 + (shown.length * 8 + 8) + shown.length * addrSize v6 :=
    rfl
  have hcsMem : ∀ s ∈ csaddrs, s ∈ stores := fun s hs => by simp [← hstores, hs]
  have haddrMem : ∀ s ∈ addrs, s ∈ stores := fun s hs => by simp [← hstores, hs]
  refine ⟨⟨120, nameSpace, results + 120, results + 120 + (name.length + 1) * 2, shown.length,
    buf, lpBlob⟩, blobSize v6 hostName.length shown.length, lpBlob + 16,
    ⟨lpBlob + 16 + 32 - (lpBlob + 16), aliases - (lpBlob + 16),
      if v6 = true then afInet6 else afInet, addrSize v6, list - (lpBlob + 16)⟩, ?_⟩
  refine ⟨?_, ?_, ?_, rfl, ?_, ?_, ?_, ?_, ?_, ?_, ?_, ?_⟩
  · rw [hquery]
    simp [← hstores]
  · simp [← hstores]
  · simp [← hstores]
  · intro j entry hentry
    obtain ⟨remote, localAddr, hc, hremote, hlocal⟩ := hcs.shows j entry hentry
    rw [Nat.zero_add] at hc
    exact ⟨remote, localAddr, hcsMem _ hc, hcsMem _ hremote, hcsMem _ hlocal⟩
  · simp [← hstores]
  · rw [hhostent]
    simp [← hstores]
  · rw [hname]
    simp [← hstores]
  · rw [hali]
    simp [← hstores]
  · intro j entry hentry
    obtain ⟨address, hpointer, haddress, hge, hend⟩ := haddr.shows j entry hentry
    have hoff : lpBlob + 16 + (address - (lpBlob + 16)) = address := by omega
    rw [Nat.zero_add] at hpointer
    refine ⟨address - (lpBlob + 16), ?_, ?_, by omega⟩
    · rw [hlst]
      exact haddrMem _ hpointer
    · rw [hoff]
      exact haddrMem _ haddress
  · have hcloses := haddr.closes
    rw [Nat.zero_add] at hcloses
    rw [hlst]
    exact haddrMem _ hcloses
  · dsimp only
    omega

/-! ### The calls -/

variable (svcidDnsTypeAAAA : Guid) (toMultiByte : List WChar → List UInt8)

/-- What `WSA_FillResponseStructure` comes to: it refuses, it asks for more room, or it lays out the
response in the room that it has. -/
theorem fillResponseStructure_cases (lookup : Lookup) (results bufferLength : Nat) :
    (∃ error, error ≠ some .fault ∧ fillResponseStructure svcidDnsTypeAAAA toMultiByte lookup
      results bufferLength = ⟨false, bufferLength, error, []⟩) ∨
    ∃ entries name, lookup.entries = some entries ∧ lookup.domainName = some name ∧
      ∃ needed, (∀ results', results' ≠ 0 → ∀ room, needed ≤ room →
        fillResponseStructure svcidDnsTypeAAAA toMultiByte lookup results' room =
          ⟨true, room, none, (layOut (isIPv6Query svcidDnsTypeAAAA lookup.serviceClassId)
            lookup.nameSpace name (toMultiByte name) entries results').1⟩) ∧
        needed = neededSize (isIPv6Query svcidDnsTypeAAAA lookup.serviceClassId) name.length
          (toMultiByte name).length (entries.filter
            (listed (isIPv6Query svcidDnsTypeAAAA lookup.serviceClassId))).length ∧
        results ≠ 0 ∧ (bufferLength < needed →
          fillResponseStructure svcidDnsTypeAAAA toMultiByte lookup results bufferLength =
            ⟨false, needed, some .fault, []⟩) := by
  cases hentries : lookup.entries with
  | none =>
    refine Or.inl ⟨none, nofun, ?_⟩
    rw [fillResponseStructure, hentries]
  | some entries =>
    cases hname : lookup.domainName with
    | none =>
      refine Or.inl ⟨none, nofun, ?_⟩
      rw [fillResponseStructure, hentries, hname]
    | some name =>
      by_cases hresults : results = 0
      · refine Or.inl ⟨none, nofun, ?_⟩
        rw [fillResponseStructure, hentries, hname]
        dsimp only
        rw [if_pos hresults]
      by_cases hhost : toMultiByte name = []
      · refine Or.inl ⟨some .invalidParameter, nofun, ?_⟩
        rw [fillResponseStructure, hentries, hname]
        dsimp only
        rw [if_neg hresults, if_pos hhost]
      generalize hv6 : isIPv6Query svcidDnsTypeAAAA lookup.serviceClassId = v6
      by_cases hcount : (entries.filter (listed v6)).length = 0
      · refine Or.inl ⟨some .noMore, nofun, ?_⟩
        rw [fillResponseStructure, hentries, hname]
        dsimp only
        rw [hv6, if_neg hresults, if_neg hhost, if_pos hcount]
      by_cases hmany : 0xFFFFFFFF < (entries.filter (listed v6)).length
      · refine Or.inl ⟨some .invalidParameter, nofun, ?_⟩
        rw [fillResponseStructure, hentries, hname]
        dsimp only
        rw [hv6, if_neg hresults, if_neg hhost, if_neg hcount, if_pos hmany]
      by_cases hbig : 0xFFFFFFFF < neededSize v6 name.length (toMultiByte name).length
          (entries.filter (listed v6)).length
      · refine Or.inl ⟨some .invalidParameter, nofun, ?_⟩
        rw [fillResponseStructure, hentries, hname]
        dsimp only
        rw [hv6, if_neg hresults, if_neg hhost, if_neg hcount, if_neg hmany, if_pos hbig]
      refine Or.inr ⟨entries, name, rfl, rfl, _, fun results' hresults' room hroom => ?_, rfl,
        hresults, fun hshort => ?_⟩
      · have hfits := (layOut_spec v6 lookup.nameSpace name (toMultiByte name) entries results').1
        rw [fillResponseStructure, hentries, hname]
        dsimp only
        rw [hv6, if_neg hresults', if_neg hhost, if_neg hcount, if_neg hmany, if_neg hbig,
          if_neg (Nat.not_lt.mpr hroom), if_neg (by omega)]
      · rw [fillResponseStructure, hentries, hname]
        dsimp only
        rw [hv6, if_neg hresults, if_neg hhost, if_neg hcount, if_neg hmany, if_neg hbig,
          if_pos hshort]

/-- The outcomes of calls after each other for one lookup, each call by its results and the
length of its buffer. -/
def lookupServiceNexts (lookup : Lookup) : List (Nat × Nat) → List ((Nat × Nat) × Outcome)
  | [] => []
  | call :: calls =>
    let r := lookupServiceNext svcidDnsTypeAAAA toMultiByte lookup call.1 call.2
    (call, r.2.2) :: lookupServiceNexts r.2.1 calls

/-- A call says that there is no more, or it answers as the lookup stands; it then leaves the
lookup as it is exactly if it does not succeed. -/
theorem lookupServiceNext_cases (lookup : Lookup) (results bufferLength : Nat) :
    let r := lookupServiceNext svcidDnsTypeAAAA toMultiByte lookup results bufferLength
    let outcome := fillResponseStructure svcidDnsTypeAAAA toMultiByte lookup results bufferLength
    r.2 = (lookup, ⟨false, bufferLength, some .noMore, []⟩) ∨
      lookup.noMore = false ∧
        (outcome.ret = true ∧ r.2 = ({ lookup with noMore := true }, outcome) ∨
          outcome.ret = false ∧ r.2 = (lookup, outcome)) := by
  intro r outcome
  by_cases hmore : lookup.noMore = true ∨ lookup.entries = none
  · exact .inl (congrArg Prod.snd (if_pos hmore))
  have hr : r = if outcome.ret then (true, { lookup with noMore := true }, outcome)
      else (false, lookup, outcome) := if_neg hmore
  refine .inr ⟨by simpa using (not_or.mp hmore).1, ?_⟩
  cases hret : outcome.ret with
  | true => exact .inl ⟨rfl, by rw [hr, if_pos hret]⟩
  | false => exact .inr ⟨rfl, by rw [hr, hret, if_neg Bool.false_ne_true]⟩

theorem mem_lookupServiceNexts {lookup : Lookup} {calls : List (Nat × Nat)}
    {x : (Nat × Nat) × Outcome}
    (hx : x ∈ lookupServiceNexts svcidDnsTypeAAAA toMultiByte lookup calls) :
    x.2 = ⟨false, x.1.2, some .noMore, []⟩ ∨ lookup.noMore = false ∧
      x.2 = fillResponseStructure svcidDnsTypeAAAA toMultiByte lookup x.1.1 x.1.2 := by
  induction calls generalizing lookup with
  | nil => cases hx
  | cons call calls ih =>
    rw [lookupServiceNexts] at hx
    rcases lookupServiceNext_cases svcidDnsTypeAAAA toMultiByte lookup call.1 call.2 with
      h | ⟨hmore, ⟨-, h⟩ | ⟨-, h⟩⟩ <;> rw [h] at hx <;> rcases List.mem_cons.mp hx with rfl | hx
    · exact .inl rfl
    · exact ih hx
    · exact .inr ⟨hmore, rfl⟩
    · exact .inl ((ih hx).resolve_right fun h => by cases h.1)
    · exact .inr ⟨hmore, rfl⟩
    · exact ih hx

end Sandboxie.DnsFilter

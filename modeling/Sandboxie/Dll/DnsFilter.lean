import Sandboxie.Common.Text
import Sandboxie.Lib.Layout

/-!
# The response of the DNS filter

`WSA_FillResponseStructure` of `core/dll/dns_filter.c` counts the bytes that a response needs and
then lays it out behind the results structure, with a pointer that is moved on and aligned.  The
sizes are those of the 64-bit structures.
-/

namespace Sandboxie.DnsFilter

open Layout

abbrev afInet : Nat := 2
abbrev afInet6 : Nat := 23

/-- `Data` of `IP_ADDRESS` -/
abbrev IpData := Fin 16 → UInt8

/-- The four bytes of `Data32[3]`. -/
def data32 (ip : IpData) : Fin 4 → UInt8 := fun i => ip ⟨12 + i, by omega⟩

structure IpEntry where
  type : Nat
  ip : IpData

/-- A `GUID`. -/
abbrev Guid := Nat

/-- `WSA_LOOKUP` -/
structure Lookup where
  entries : Option (List IpEntry)
  noMore : Bool
  domainName : Option (List WChar)
  serviceClassId : Option Guid
  nameSpace : Nat

/-- What is set of a `WSAQUERYSETW`. -/
structure QuerySet where
  dwSize : Nat
  dwNameSpace : Nat
  lpszServiceInstanceName : Nat
  lpszQueryString : Nat
  dwNumberOfCsAddrs : Nat
  lpcsaBuffer : Nat
  lpBlob : Nat

/-- `CSADDR_INFO` -/
structure CsAddr where
  remote : Nat
  remoteLength : Nat
  localAddr : Nat
  localLength : Nat
  iSocketType : Nat
  iProtocol : Nat

/-- `HOSTENT`, with offsets in place of its pointers. -/
structure Hostent where
  h_name : Nat
  h_aliases : Nat
  h_addrtype : Nat
  h_length : Nat
  h_addr_list : Nat

inductive Value
  | query (q : QuerySet)
  | wide (s : List WChar)
  | csaddr (c : CsAddr)
  | sockaddrIn (port : Nat) (addr : Fin 4 → UInt8)
  | sockaddrIn6 (port : Nat) (addr : IpData)
  | blob (cbSize pBlobData : Nat)
  | hostent (h : Hostent)
  | narrow (s : List UInt8)
  | pointer (p : Nat)
  | addr4 (addr : Fin 4 → UInt8)
  | addr6 (addr : IpData)

/-- `sizeof`, and for a text the bytes up to its terminator. -/
def Value.size : Value → Nat
  | .query _ => 120
  | .wide s => (s.length + 1) * 2
  | .csaddr _ => 40
  | .sockaddrIn _ _ => 16
  | .sockaddrIn6 _ _ => 28
  | .blob _ _ => 16
  | .hostent _ => 32
  | .narrow s => s.length
  | .pointer _ => 8
  | .addr4 _ => 4
  | .addr6 _ => 16

abbrev Store := Nat × Value

inductive SockError
  | invalidParameter
  | noMore
  | fault
deriving DecidableEq

/-- What a call does: its result, `*lpdwBufferLength`, the last error, and what it writes. -/
structure Outcome where
  ret : Bool
  bufferLength : Nat
  lastError : Option SockError
  stores : List Store

section Fill

variable (isIPv6Query : Bool)

/-- The filter by type of the loops. -/
def listed (entry : IpEntry) : Bool :=
  if isIPv6Query then entry.type == afInet6 else entry.type == afInet

/-- `sizeof` of the socket address of a query. -/
def sockaddrSize : Nat := if isIPv6Query then 28 else 16

def addrSize : Nat := if isIPv6Query then 16 else 4

def remoteOf (entry : IpEntry) : Value :=
  if isIPv6Query then .sockaddrIn6 0x3500 entry.ip else .sockaddrIn 0x3500 (data32 entry.ip)

def localOf : Value :=
  if isIPv6Query then .sockaddrIn6 0 (fun _ => 0) else .sockaddrIn 0 (fun _ => 0)

def addressOf (entry : IpEntry) : Value :=
  if isIPv6Query then .addr6 entry.ip else .addr4 (data32 entry.ip)

/-- The `CSADDR_INFO` of an entry. -/
def csaddrOf (remote localAddr : Nat) : CsAddr where
  remote := remote
  remoteLength := sockaddrSize isIPv6Query
  localAddr := localAddr
  localLength := sockaddrSize isIPv6Query
  iSocketType := if isIPv6Query then 3 else 2
  iProtocol := if isIPv6Query then 23 else 17

/-- The loop over the entries that fills the array at `lpcsaBuffer` from index `i` on, and where
`currentPtr` ends. -/
def fillCsAddrs (lpcsaBuffer : Nat) : Nat → Nat → List IpEntry → List Store × Nat
  | _, currentPtr, [] => ([], currentPtr)
  | i, currentPtr, entry :: rest =>
    if listed isIPv6Query entry then
      let remoteAddr := currentPtr
      let localAddr := remoteAddr + sockaddrSize isIPv6Query
      let (stores, currentPtr) := fillCsAddrs lpcsaBuffer (i + 1)
        (localAddr + sockaddrSize isIPv6Query) rest
      ((remoteAddr, remoteOf isIPv6Query entry) :: (localAddr, localOf isIPv6Query) ::
        (lpcsaBuffer + 40 * i, .csaddr (csaddrOf isIPv6Query remoteAddr localAddr)) :: stores,
        currentPtr)
    else fillCsAddrs lpcsaBuffer i currentPtr rest

/-- The loop over the entries that fills `h_addr_list` and the addresses behind it. -/
def fillAddrList (hostentBase addrList : Nat) : Nat → Nat → List IpEntry → List Store × Nat
  | addrIdx, currentPtr, [] => ([(addrList + 8 * addrIdx, .pointer 0)], currentPtr)
  | addrIdx, currentPtr, entry :: rest =>
    if listed isIPv6Query entry then
      let (stores, ptr) := fillAddrList hostentBase addrList (addrIdx + 1)
        (currentPtr + addrSize isIPv6Query) rest
      ((addrList + 8 * addrIdx, .pointer (currentPtr - hostentBase)) ::
        (currentPtr, addressOf isIPv6Query entry) :: stores, ptr)
    else fillAddrList hostentBase addrList addrIdx currentPtr rest

def frontSize (domainChars ipCount : Nat) : Nat :=
  120 + (domainChars + 1) * 2 + (domainChars + 1) * 2 + ipCount * 40 +
    ipCount * (sockaddrSize isIPv6Query * 2)

def blobSize (hostNameBytesNeeded ipCount : Nat) : Nat :=
  32 + hostNameBytesNeeded + (8 - 1) + 8 + (8 - 1) + (ipCount * 8 + 8) +
    ipCount * addrSize isIPv6Query

def neededSize (domainChars hostNameBytesNeeded ipCount : Nat) : Nat :=
  alignUp 8 (frontSize isIPv6Query domainChars ipCount) + 16 +
    blobSize isIPv6Query hostNameBytesNeeded ipCount

/-- The second half of `WSA_FillResponseStructure`: the response is laid out behind
`lpqsResults`. -/
def layOut (nameSpace : Nat) (name : List WChar) (hostName : List UInt8) (entries : List IpEntry)
    (lpqsResults : Nat) : List Store × Nat :=
  let ipCount := (entries.filter (listed isIPv6Query)).length
  let domainNameLen := (name.length + 1) * 2
  let lpszServiceInstanceName := lpqsResults + 120
  let lpszQueryString := lpszServiceInstanceName + domainNameLen
  let lpcsaBuffer := lpszQueryString + domainNameLen
  let (csaddrs, currentPtr) :=
    fillCsAddrs isIPv6Query lpcsaBuffer 0 (lpcsaBuffer + ipCount * 40) entries
  let lpBlob := alignUp 8 currentPtr
  let hostentBase := lpBlob + 16
  let h_name := hostentBase + 32
  let h_aliases := alignUp 8 (h_name + hostName.length)
  let h_addr_list := alignUp 8 (h_aliases + 8)
  let (addrs, currentPtr) := fillAddrList isIPv6Query hostentBase h_addr_list 0
    (h_addr_list + (ipCount + 1) * 8) entries
  ([(lpqsResults, .query
      { dwSize := 120
        dwNameSpace := nameSpace
        lpszServiceInstanceName := lpszServiceInstanceName
        lpszQueryString := lpszQueryString
        dwNumberOfCsAddrs := ipCount
        lpcsaBuffer := lpcsaBuffer
        lpBlob := lpBlob }),
    (lpszServiceInstanceName, .wide name),
    (lpszQueryString, .wide name)] ++ csaddrs ++
    [(lpBlob, .blob (blobSize isIPv6Query hostName.length ipCount) hostentBase),
      (hostentBase, .hostent
        { h_name := h_name - hostentBase
          h_aliases := h_aliases - hostentBase
          h_addrtype := if isIPv6Query then afInet6 else afInet
          h_length := addrSize isIPv6Query
          h_addr_list := h_addr_list - hostentBase }),
      (h_name, .narrow hostName),
      (h_aliases, .pointer 0)] ++ addrs, currentPtr)

end Fill

variable (svcidDnsTypeAAAA : Guid) (toMultiByte : List WChar → List UInt8)

/-- `WSA_IsIPv6Query` -/
def isIPv6Query (serviceClassId : Option Guid) : Bool := serviceClassId == some svcidDnsTypeAAAA

/-- `WSA_FillResponseStructure`; `toMultiByte` is `WideCharToMultiByte` for the name and its
terminator, and gives nothing where that fails. -/
def fillResponseStructure (pLookup : Lookup) (lpqsResults bufferLength : Nat) : Outcome :=
  let refuse (error : Option SockError) : Outcome := ⟨false, bufferLength, error, []⟩
  match pLookup.entries, pLookup.domainName with
  | some entries, some name =>
    if lpqsResults = 0 then refuse none
    else
      let v6 := isIPv6Query svcidDnsTypeAAAA pLookup.serviceClassId
      let hostName := toMultiByte name
      let ipCount := (entries.filter (listed v6)).length
      let needed := neededSize v6 name.length hostName.length ipCount
      if hostName = [] then refuse (some .invalidParameter)
      else if ipCount = 0 then refuse (some .noMore)
      else if 0xFFFFFFFF < ipCount then refuse (some .invalidParameter)
      else if 0xFFFFFFFF < needed then refuse (some .invalidParameter)
      else if bufferLength < needed then ⟨false, needed, some .fault, []⟩
      else
        let (stores, currentPtr) := layOut v6 pLookup.nameSpace name hostName entries lpqsResults
        if lpqsResults + bufferLength < currentPtr then
          ⟨false, bufferLength, some .fault, stores⟩
        else ⟨true, bufferLength, none, stores⟩
  | _, _ => refuse none

/-- What a call of `WSA_WSALookupServiceNextW` does for a lookup that is filtered: whether it
succeeds, the lookup, and what is done to the results. -/
def lookupServiceNext (pLookup : Lookup) (lpqsResults bufferLength : Nat) :
    Bool × Lookup × Outcome :=
  if pLookup.noMore ∨ pLookup.entries = none then
    (false, pLookup, ⟨false, bufferLength, some .noMore, []⟩)
  else
    let outcome := fillResponseStructure svcidDnsTypeAAAA toMultiByte pLookup lpqsResults
      bufferLength
    if outcome.ret then (true, { pLookup with noMore := true }, outcome)
    else (false, pLookup, outcome)

end Sandboxie.DnsFilter

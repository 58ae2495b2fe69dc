import Sandboxie.Common.NetFwRanges
import Sandboxie.Common.StrUtil

/-!
# Parsing a network rule

`NetFw_ParseRule` of `common/netfw.c` takes `Allow;Port=137,138,443-450;Address=…;Protocol=TCP`
apart.  The numbers are copied into a buffer on the stack before they are read; what the buffer
held before is a parameter.
-/

namespace Sandboxie.NetFw

open StrUtil RangeMap

/-- `-` -/
abbrev dash : WChar := '-'.toNat
/-- `:` -/
abbrev colon : WChar := ':'.toNat
/-- `.` -/
abbrev dot : WChar := '.'.toNat

/-! ### Numbers of the C library -/

/-- `iswspace` -/
def isSpace (c : WChar) : Bool := c == ' '.toNat || (decide (9 ≤ c) && decide (c ≤ 13))

/-- `iswdigit` -/
def isDigit (c : WChar) : Bool := decide ('0'.toNat ≤ c) && decide (c ≤ '9'.toNat)

/-- The digits of `_wtoi`, in an `int` that wraps; there is no answer if they run over the end of
what can be read. -/
def wtoiDigits : List WChar → Nat → Option Nat
  | [], _ => none
  | c :: l, n =>
    if isDigit c then wtoiDigits l ((n * 10 + (c - '0'.toNat)) % 2 ^ 32) else some n

/-- `_wtoi` behind the white space. -/
def wtoiSign : List WChar → Option Nat
  | [] => none
  | c :: l =>
    if c = dash then (wtoiDigits l 0).map fun n => (2 ^ 32 - n) % 2 ^ 32
    else if c = '+'.toNat then wtoiDigits l 0
    else wtoiDigits (c :: l) 0

def wtoi (l : List WChar) : Option Nat := wtoiSign (l.dropWhile isSpace)

def digitValue (c : WChar) : Option Nat :=
  if isDigit c then some (c - '0'.toNat)
  else if 'a'.toNat ≤ c ∧ c ≤ 'z'.toNat then some (c - 'a'.toNat + 10)
  else if 'A'.toNat ≤ c ∧ c ≤ 'Z'.toNat then some (c - 'A'.toNat + 10)
  else none

/-- The digits of `wcstoul`, and what follows them. -/
def wcstoulDigits (base : Nat) : List WChar → Nat → Nat × List WChar
  | [], n => (n, [])
  | c :: l, n =>
    match digitValue c with
    | none => (n, c :: l)
    | some d => if d < base then wcstoulDigits base l (n * base + d) else (n, c :: l)

/-- `wcstoul`: the value, an `unsigned long`, and what follows the number. -/
def wcstoul (s : List WChar) (base : Nat) : Nat × List WChar :=
  let s1 := s.dropWhile isSpace
  let neg := s1.head? == some dash
  let s2 := if neg || s1.head? == some '+'.toNat then s1.drop 1 else s1
  let zero := s2.head? == some '0'.toNat
  let hex := (base == 0 || base == 16) && zero &&
    ((s2.drop 1).head? == some 'x'.toNat || (s2.drop 1).head? == some 'X'.toNat) &&
    ((s2.drop 2).head?.bind digitValue).any (· < 16)
  let base := if hex then 16 else if base = 0 then (if zero then 8 else 10) else base
  let s3 := if hex then s2.drop 2 else s2
  let (n, rest) := wcstoulDigits base s3 0
  if rest.length = s3.length then (0, s)
  else if 2 ^ 32 ≤ n then (2 ^ 32 - 1, rest)
  else if neg then ((2 ^ 32 - n) % 2 ^ 32, rest)
  else (n, rest)

/-! ### Addresses -/

/-- The loop of `_inet_aton`: whether the text was read, and the bytes. -/
def inetAtonLoop : Nat → List WChar → List Nat → Bool × List Nat
  | 0, _, bytes => (true, bytes)
  | _ + 1, [], bytes => (true, bytes)
  | i + 1, c :: l, bytes =>
    let (x, p) := wcstoul (c :: l) 0
    if 256 ≤ x ∨ p.length = (c :: l).length then (false, bytes)
    else
      match p with
      | [] => inetAtonLoop i [] (bytes ++ [x])
      | c :: p => if c = dot then inetAtonLoop i p (bytes ++ [x]) else (false, bytes ++ [x])

def inetAton (src : List WChar) : Int × List Nat :=
  if src = [] then (0, [0, 0, 0, 0])
  else
    let (ok, read) := inetAtonLoop 4 src []
    let bytes := (read ++ [0, 0, 0, 0]).take 4
    if ok then
      match bytes, read.length with
      | [a, b, c, d], i =>
        if a / 64 ≤ 1 then
          if i = 3 then (1, [a, 0, b, c])
          else if i = 2 then (1, [a, 0, c, b])
          else (1, [a, b, c, d])
        else if a / 64 = 2 then
          if i = 3 then (1, [a, b, 0, c]) else (1, [a, b, c, d])
        else (1, [a, b, c, d])
      | _, _ => (1, bytes)
    else (0, bytes)

def ipcharok (c : WChar) : Bool := c == colon || (digitValue c).any (· < 16)

def delimchar (c : WChar) : Bool := !(c == colon || (digitValue c).isSome)

/-- The loop of `_inet_pton`, with `i` bytes written: the bytes, where the elided ones are and what
follows, or the bytes where the text cannot be read. -/
def inetPtonLoop : Nat → List WChar → List Nat → Nat → List Nat × Option (Nat × List WChar)
  | 0, p, bytes, ellipsis => (bytes, some (ellipsis, p))
  | i + 1, p, bytes, ellipsis =>
    if ipcharok (p.headD 0) then
      let (x, rest) := wcstoul p 16
      if 2 ^ 16 ≤ x ∨ (rest.headD 0 ≠ colon ∧ delimchar (rest.headD 0) = false) then (bytes, none)
      else
        let written := bytes ++ [x / 256, x % 256]
        if rest.headD 0 = colon then
          if (rest.drop 1).headD 0 = colon then
            if ellipsis ≠ 0 then (written, none)
            else inetPtonLoop i (rest.drop 2) written written.length
          else inetPtonLoop i (rest.drop 1) written ellipsis
        else if rest.length = p.length then (bytes, some (ellipsis, rest))
        else inetPtonLoop i rest written ellipsis
    else (bytes, some (ellipsis, p))

def addressOf (bytes : List Nat) : IpAddress :=
  Fin.ofNat (2 ^ 128) ((bytes ++ List.replicate 16 0).take 16 |>.foldl (fun n b => n * 256 + b) 0)

def inetPton (v6 : Bool) (src : List WChar) : Int × IpAddress :=
  if v6 then
    match inetPtonLoop 8 src [] 0 with
    | (bytes, none) => (0, addressOf bytes)
    | (bytes, some (ellipsis, p)) =>
      if p.length = src.length ∨ delimchar (p.headD 0) = false then (0, addressOf bytes)
      else
        -- the bytes behind the elided ones move to the end
        (1, addressOf (bytes.take ellipsis ++ List.replicate (16 - bytes.length) 0 ++
          bytes.drop ellipsis))
  else
    let (ret, bytes) := inetAton src
    (ret, addressOf (List.replicate 10 0 ++ [255, 255] ++ bytes))

/-! ### The rule -/

/-- What `tmp` of `_wntoi` holds before it is written. -/
abbrev Tmp := { l : List WChar // l.length = 12 }

section Parse

variable (t : CText)

/-- The characters that are copied out of a text: the terminator may be among them. -/
def slice (p max : Nat) : List WChar := ((t.chars ++ [0]).drop p).take max

def wntoi (tmp : Tmp) (str max : Nat) : Except Fault Nat :=
  if t.chars.length + 1 < str + max then .error .read
  else if 12 < max then .error .write
  else
    match wtoi (slice t str max ++ tmp.1.drop max) with
    | none => .error .read
    | some n => .ok n

/-- `_inet_xton`; `type` is not asked for. -/
def inetXton (src src_len : Nat) : Except Fault (Int × IpAddress) :=
  let src_len := min src_len 46
  if t.chars.length + 1 < src + src_len then .error .read
  else
    let tmp := Text.cut (slice t src src_len)
    .ok (inetPton (tmp.contains colon) tmp)

/-- The cast to `USHORT`. -/
def ushort (n : Nat) : Port := Fin.ofNat (2 ^ 16) n

/-- The loop of `NetFw_ParseRule` over the ports; `n` counts the calls of `_wntoi`. -/
def parsePorts (stale : Nat → Tmp) (port_end : Nat) :
    Nat → Nat → Nat → RangeMap Port → Except Fault (RangeMap Port)
  | 0, _, _, _ => .error .hang
  | fuel + 1, port_value, n, map =>
    if port_value < port_end then do
      let tag ← getTagValue t port_value (some port_end) comma
      match tag.value, tag.next with
      | some port_str1, some port_value =>
        match ← wcsnchr t port_str1 tag.len dash with
        | some port_str2 =>
          let port1 ← wntoi t (stale n) port_str1 (port_str2 - port_str1)
          let port2 ← wntoi t (stale (n + 1)) (port_str2 + 1) (ulongSub port_value (port_str2 + 1))
          parsePorts stale port_end fuel port_value (n + 2)
            (ruleAddPortRange map (ushort port1) (ushort port2))
        | none =>
          let port ← wntoi t (stale n) port_str1 tag.len
          parsePorts stale port_end fuel port_value (n + 1)
            (ruleAddPortRange map (ushort port) (ushort port))
      | _, _ => .error .null -- `wcsnchr` reads what the null pointer points to
    else .ok map

/-- The loop of `NetFw_ParseRule` over the addresses. -/
def parseIps (ip_end : Nat) : Nat → Nat → RangeMap IpAddress → Except Fault (RangeMap IpAddress)
  | 0, _, _ => .error .hang
  | fuel + 1, ip_value, map =>
    if ip_value < ip_end then do
      let tag ← getTagValue t ip_value (some ip_end) comma
      match tag.value, tag.next with
      | some ip_str1, some ip_value =>
        match ← wcsnchr t ip_str1 tag.len dash with
        | some ip_str2 =>
          let ip1 ← inetXton t ip_str1 (ip_str2 - ip_str1)
          let ip2 ← inetXton t (ip_str2 + 1) (ulongSub ip_value (ip_str2 + 1))
          parseIps ip_end fuel ip_value (ruleAddIpRange map ip1.2 ip2.2)
        | none =>
          let ip ← inetXton t ip_str1 tag.len
          parseIps ip_end fuel ip_value (ruleAddIpRange map ip.2 ip.2)
      | _, _ => .error .null
    else .ok map

/-- The `Port` tag of `NetFw_ParseRule`. -/
def parsePortTag (stale : Nat → Tmp) (map : RangeMap Port) :
    Option (Nat × Nat) → Except Fault (RangeMap Port)
  | none => .ok map
  | some (port_value, port_len) =>
    parsePorts t stale (port_value + port_len) (t.chars.length + 2) port_value 0 map

/-- The `Address` tag of `NetFw_ParseRule`. -/
def parseIpTag (map : RangeMap IpAddress) : Option (Nat × Nat) → Except Fault (RangeMap IpAddress)
  | none => .ok map
  | some (ip_value, ip_len) =>
    parseIps t (ip_value + ip_len) (t.chars.length + 2) ip_value map

/-- `IPPROTO_TCP`, `IPPROTO_UDP` and `IPPROTO_ICMP` by their names. -/
def protocols : List (List WChar × Int) :=
  [(wide ['T', 'C', 'P'], 6), (wide ['U', 'D', 'P'], 17), (wide ['I', 'C', 'M', 'P'], 1)]

/-- The `Protocol` tag of `NetFw_ParseRule`. -/
def parseProtocol (towlower : WChar → WChar) (protocol : Int) (found : Option (Nat × Nat)) : Int :=
  (found.bind fun prot => (protocols.find? fun name =>
    sameN t towlower prot.1 name.1 prot.2).map (·.2)).getD protocol

/-- `NetFw_ParseRule` -/
def parseRule (towlower : WChar → WChar) (stale : Nat → Tmp) (rule : Rule) :
    Except Fault Rule := do
  let action ← getTagValue t 0 none semicolon
  -- no character is compared behind a null pointer
  let block := action.value.any fun action_value =>
    !sameN t towlower action_value (wide ['A', 'l', 'l', 'o', 'w']) action.len
  let tag_list := action.next
  let ports ← findTagValuePtr t towlower tag_list (wide ['P', 'o', 'r', 't']) equals semicolon
  let portMap ← parsePortTag t stale rule.portMap ports
  let ips ← findTagValuePtr t towlower tag_list (wide ['A', 'd', 'd', 'r', 'e', 's', 's']) equals
    semicolon
  let ipMap ← parseIpTag t rule.ipMap ips
  let prot ← findTagValuePtr t towlower tag_list
    (wide ['P', 'r', 'o', 't', 'o', 'c', 'o', 'l']) equals semicolon
  return { rule with
    actionBlock := block
    portMap := portMap
    ipMap := ipMap
    protocol := parseProtocol t towlower rule.protocol prot }

end Parse

end Sandboxie.NetFw

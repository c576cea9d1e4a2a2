import RustStd.Net.Ipv6Parse

/-!
# Display of addresses

`Display` in `library/core/src/net/ip_addr.rs` and `socket_addr.rs`. A `write!`
gives the pieces that it passes to `write_str` in their order. Without a width
and a precision they go to the formatter; otherwise they go to a buffer of a
fixed size first, where a piece that does not fit is an error. `none` is an
error or a panic.
-/

set_option autoImplicit false

namespace RustStd.Net
open RustStd.IntFmt

/-- `write_str` of a formatter, or of a `DisplayBuffer` of the given size. -/
def writeStr (size : Option ℕ) (buf s : List UInt8) : Option (List UInt8) :=
  if size.all fun n => buf.length+s.length ≤ n then some (buf ++ s) else none

def writeAll (size : Option ℕ) (pieces : List (List UInt8)) : Option (List UInt8) :=
  pieces.foldlM (writeStr size) []

def displayUint (W : Width) (small : Bool) (n : ℕ) : Option (List UInt8) := display ⟨W, false⟩ small n

def lowerHex (n : UInt16) : Option (List UInt8) := fmtRadix .lowerHex 16 n.toNat

def Ipv4Addr.pieces (small : Bool) (ip : Ipv4Addr) : Option (List (List UInt8)) := do
  let a ← displayUint .w8 small ip.a.toNat
  let b ← displayUint .w8 small ip.b.toNat
  let c ← displayUint .w8 small ip.c.toNat
  let d ← displayUint .w8 small ip.d.toNat
  return [a, [46], b, [46], c, [46], d]

def toBeBytes (s : UInt16) : List UInt8 := [(s >>> 8).toUInt8, s.toUInt8]

def Ipv6Addr.octets (ip : Ipv6Addr) : List UInt8 := ip.segments.toList.flatMap toBeBytes

def Ipv6Addr.toIpv4Mapped (ip : Ipv6Addr) : Option Ipv4Addr :=
  match ip.octets with
  | [0, 0, 0, 0, 0, 0, 0, 0, 0, 0, 0xff, 0xff, a, b, c, d] => some ⟨a, b, c, d⟩
  | _ => none

structure Span where
  start : ℕ
  len : ℕ
  deriving DecidableEq, Repr

/-- One round of the search for zeroes, with the longest and the current span. -/
def spanStep (segment : UInt16) (i : ℕ) (longest current : Span) : Span × Span :=
  if segment = 0 then
    let current := if current.len = 0 then { current with start := i } else current
    let current := { current with len := current.len+1 }
    (if current.len > longest.len then current else longest, current)
  else (longest, ⟨0, 0⟩)

def spanLoop : List UInt16 → ℕ → Span → Span → Span
  | [], _, longest, _ => longest
  | segment :: rest, i, longest, current =>
    let (longest, current) := spanStep segment i longest current
    spanLoop rest (i+1) longest current

def zeroes (segments : List UInt16) : Span := spanLoop segments 0 ⟨0, 0⟩ ⟨0, 0⟩

def fmtSubslice : List UInt16 → Option (List (List UInt8))
  | [] => some []
  | first :: tail => do
    let first ← lowerHex first
    let tail ← tail.mapM fun segment => do
      let segment ← lowerHex segment
      return [[58], segment]
    return first :: tail.flatten

def Ipv6Addr.pieces (small : Bool) (ip : Ipv6Addr) : Option (List (List UInt8)) := do
  let segments := ip.segments.toList
  match ip.toIpv4Mapped with
  | some ipv4 =>
    let ipv4 ← ipv4.pieces small
    return [58, 58, 102, 102, 102, 102, 58] :: ipv4
  | none =>
    let zeroes := zeroes segments
    if zeroes.len > 1 then
      let front ← fmtSubslice (segments.take zeroes.start)
      let back ← fmtSubslice (segments.drop (zeroes.start+zeroes.len))
      return front ++ [[58, 58]] ++ back
    else fmtSubslice segments

def SocketAddrV4.pieces (small : Bool) (a : SocketAddrV4) : Option (List (List UInt8)) := do
  let ip ← a.ip.pieces small
  let port ← displayUint .w16 small a.port.toNat
  return ip ++ [[58], port]

def SocketAddrV6.pieces (small : Bool) (a : SocketAddrV6) : Option (List (List UInt8)) := do
  let ip ← a.ip.pieces small
  let port ← displayUint .w16 small a.port.toNat
  if a.scopeId = 0 then return [[91]] ++ ip ++ [[93, 58], port]
  else
    let scopeId ← displayUint .w32 small a.scopeId.toNat
    return [[91]] ++ ip ++ [[37], scopeId, [93, 58], port]

/-- The lengths of `"255.255.255.255"`, `"255.255.255.255:65535"`,
`"ffff:ffff:ffff:ffff:ffff:ffff:ffff:ffff"` and the longest text of a socket
address with a scope. -/
def longestIpv4Addr : ℕ := 15

def longestIpv4SocketAddr : ℕ := 21

def longestIpv6Addr : ℕ := 39

def longestIpv6SocketAddr : ℕ := 58

def textOf (pieces : Option (List (List UInt8))) : Option (List UInt8) :=
  pieces.bind fun pieces => writeAll none pieces

/-- The text in the buffer that is padded. -/
def bufferOf (size : ℕ) (pieces : Option (List (List UInt8))) : Option (List UInt8) :=
  pieces.bind fun pieces => writeAll (some size) pieces

end RustStd.Net

import RustStd.Fmt.IntRoundTrip

/-!
# The parser of addresses

`library/core/src/net/parser.rs`. A parser takes the bytes that are left and
returns its result, if any, with the bytes that are left then; a parser that
fails may have moved on, and `read_atomically` goes back. Chars are bytes, since
`char::from` of a byte has its value as code point.
-/

set_option autoImplicit false

namespace RustStd.Net
open RustStd.IntFmt

structure Ipv4Addr where
  a : UInt8
  b : UInt8
  c : UInt8
  d : UInt8
  deriving DecidableEq, Repr

/-- The address as its eight groups; an octet is one of their bytes. -/
structure Ipv6Addr where
  segments : Vector UInt16 8
  deriving DecidableEq, Repr

def Ipv6Addr.ofSegments (groups : List UInt16) : Ipv6Addr := ⟨Vector.ofFn fun i => groups.getD i 0⟩

def fromBeBytes (hi lo : UInt8) : UInt16 := hi.toUInt16 <<< 8 ||| lo.toUInt16

inductive IpAddr
  | v4 (ip : Ipv4Addr)
  | v6 (ip : Ipv6Addr)
  deriving DecidableEq, Repr

structure SocketAddrV4 where
  ip : Ipv4Addr
  port : UInt16
  deriving DecidableEq, Repr

structure SocketAddrV6 where
  ip : Ipv6Addr
  port : UInt16
  flowinfo : UInt32
  scopeId : UInt32
  deriving DecidableEq, Repr

inductive SocketAddr
  | v4 (a : SocketAddrV4)
  | v6 (a : SocketAddrV6)
  deriving DecidableEq, Repr

abbrev Parser (α : Type) : Type := List UInt8 → Option α × List UInt8

instance : Monad Parser where
  pure a := fun state => (some a, state)
  bind p f := fun state =>
    match p state with
    | (none, state) => (none, state)
    | (some a, state) => f a state

namespace Parser

variable {α : Type}

def fail : Parser α := fun state => (none, state)

def readAtomically (inner : Parser α) : Parser α := fun state =>
  match inner state with
  | (none, _) => (none, state)
  | (some a, state) => (some a, state)

/-- `parse_with`; `none` is the error. -/
def parseWith (inner : Parser α) (state : List UInt8) : Option α :=
  let (result, state) := inner state
  if state.isEmpty then result else none

def readChar : Parser UInt8
  | [] => (none, [])
  | b :: tail => (some b, tail)

def readGivenChar (target : UInt8) : Parser Unit :=
  readAtomically do
    let c ← readChar
    if c = target then pure () else fail

def readSeparator (sep : UInt8) (index : ℕ) (inner : Parser α) : Parser α :=
  readAtomically do
    if index > 0 then
      readGivenChar sep
      inner
    else inner

/-- The loop of `read_number` with a largest number of digits, in `u32`; the result
and the number of digits. -/
def readDigits (radix maxDigits : ℕ) (result digitCount : ℕ) :
    List UInt8 → Option (ℕ × ℕ) × List UInt8
  | [] => (some (result, digitCount), [])
  | c :: tail =>
    match toDigit c radix with
    | none => (some (result, digitCount), c :: tail)
    | some digit =>
      let result := result*radix%2^32
      let result := (result+digit)%2^32
      let digitCount := digitCount+1
      if digitCount > maxDigits then (none, tail)
      else readDigits radix maxDigits result digitCount tail

/-- The loop of `read_number` with checked arithmetic in a type up to `max`. -/
def readDigitsChecked (radix max : ℕ) (result digitCount : ℕ) :
    List UInt8 → Option (ℕ × ℕ) × List UInt8
  | [] => (some (result, digitCount), [])
  | c :: tail =>
    match toDigit c radix with
    | none => (some (result, digitCount), c :: tail)
    | some digit =>
      if result*radix > max then (none, tail)
      else if result*radix+digit > max then (none, tail)
      else readDigitsChecked radix max (result*radix+digit) (digitCount+1) tail

def finishNumber (max : ℕ) (allowZeroPrefix hasLeadingZero : Bool) :
    Option (ℕ × ℕ) × List UInt8 → Option ℕ × List UInt8
  | (none, state) => (none, state)
  | (some (result, digitCount), state) =>
    if digitCount = 0 then (none, state)
    else if !allowZeroPrefix && hasLeadingZero && decide (digitCount > 1) then (none, state)
    else if result > max then (none, state)
    else (some result, state)

def readNumber (max radix : ℕ) (maxDigits : Option ℕ) (allowZeroPrefix : Bool) : Parser ℕ :=
  readAtomically fun state =>
    let hasLeadingZero := state.head? == some 48
    finishNumber max allowZeroPrefix hasLeadingZero <|
      match maxDigits with
      | some maxDigits => readDigits radix maxDigits 0 0 state
      | none => readDigitsChecked radix max 0 0 state

def readOctet (i : ℕ) : Parser UInt8 := do
  let n ← readSeparator 46 i (readNumber 255 10 (some 3) false)
  pure (UInt8.ofNat n)

def readIpv4Addr : Parser Ipv4Addr :=
  readAtomically do
    let a ← readOctet 0
    let b ← readOctet 1
    let c ← readOctet 2
    let d ← readOctet 3
    pure ⟨a, b, c, d⟩

def readGroupsFrom (limit : ℕ) : ℕ → List UInt16 → List UInt8 → (List UInt16 × ℕ × Bool) × List UInt8
  | 0, groups, state => ((groups, limit, false), state)
  | left+1, groups, state =>
    let i := limit-(left+1)
    let (ipv4, state) :=
      if i < limit-1 then readSeparator 58 i readIpv4Addr state else (none, state)
    match ipv4 with
    | some v4Addr =>
      let groups := groups.set i (fromBeBytes v4Addr.a v4Addr.b)
      let groups := groups.set (i+1) (fromBeBytes v4Addr.c v4Addr.d)
      ((groups, i+2, true), state)
    | none =>
      match readSeparator 58 i (readNumber 65535 16 (some 4) true) state with
      | (some g, state) => readGroupsFrom limit left (groups.set i (UInt16.ofNat g)) state
      | (none, state) => ((groups, i, false), state)

/-- `read_groups` into a slice of zeros; the slice, the number of groups read and
whether they end in an IPv4 address. -/
def readGroups (limit : ℕ) (state : List UInt8) : (List UInt16 × ℕ × Bool) × List UInt8 :=
  readGroupsFrom limit limit (List.replicate limit 0) state

def readIpv6Addr : Parser Ipv6Addr :=
  readAtomically fun state =>
    let ((head, headSize, headIpv4), state) := readGroups 8 state
    if headSize = 8 then (some (.ofSegments head), state)
    else if headIpv4 then (none, state)
    else
      let rest : Parser Ipv6Addr := do
        readGivenChar 58
        readGivenChar 58
        fun state =>
          let limit := 8-(headSize+1)
          let ((tail, tailSize, _), state) := readGroups limit state
          let head := head.take (8-tailSize) ++ tail.take tailSize
          (some (.ofSegments head), state)
      rest state

def readIpAddr : Parser IpAddr := fun state =>
  match readIpv4Addr state with
  | (some ip, state) => (some (.v4 ip), state)
  | (none, state) => (IpAddr.v6 <$> readIpv6Addr) state

def readPort : Parser UInt16 :=
  readAtomically do
    readGivenChar 58
    let n ← readNumber 65535 10 none true
    pure (UInt16.ofNat n)

def readScopeId : Parser UInt32 :=
  readAtomically do
    readGivenChar 37
    let n ← readNumber (2^32-1) 10 none true
    pure (UInt32.ofNat n)

def readSocketAddrV4 : Parser SocketAddrV4 :=
  readAtomically do
    let ip ← readIpv4Addr
    let port ← readPort
    pure ⟨ip, port⟩

def unwrapOr (p : Parser α) (default : α) : Parser α := fun state =>
  let (result, state) := p state
  (some (result.getD default), state)

def readSocketAddrV6 : Parser SocketAddrV6 :=
  readAtomically do
    readGivenChar 91
    let ip ← readIpv6Addr
    let scopeId ← readScopeId.unwrapOr 0
    readGivenChar 93
    let port ← readPort
    pure ⟨ip, port, 0, scopeId⟩

def readSocketAddr : Parser SocketAddr := fun state =>
  match readSocketAddrV4 state with
  | (some a, state) => (some (.v4 a), state)
  | (none, state) => (SocketAddr.v6 <$> readSocketAddrV6) state

end Parser

def Ipv4Addr.parseAscii (b : List UInt8) : Option Ipv4Addr :=
  if b.length > 15 then none else Parser.readIpv4Addr.parseWith b

def Ipv6Addr.parseAscii (b : List UInt8) : Option Ipv6Addr := Parser.readIpv6Addr.parseWith b

def IpAddr.parseAscii (b : List UInt8) : Option IpAddr := Parser.readIpAddr.parseWith b

def SocketAddrV4.parseAscii (b : List UInt8) : Option SocketAddrV4 :=
  Parser.readSocketAddrV4.parseWith b

def SocketAddrV6.parseAscii (b : List UInt8) : Option SocketAddrV6 :=
  Parser.readSocketAddrV6.parseWith b

def SocketAddr.parseAscii (b : List UInt8) : Option SocketAddr := Parser.readSocketAddr.parseWith b

end RustStd.Net

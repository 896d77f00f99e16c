import Mathlib.Tactic.Common

/-! IP addresses as the standard library reads them: `core::net::parser`, whose readers take what they read off the front of
    the bytes and give nothing when they cannot. -/

namespace Tgin

inductive IpAddr where
  | v4 (addr : BitVec 32)
  | v6 (addr : BitVec 128)
  deriving DecidableEq, Repr

namespace IpAddr

/-- `IpAddr::to_canonical`: an IPv4-mapped IPv6 address as its IPv4 address. -/
def toCanonical : IpAddr → IpAddr
  | .v4 addr => .v4 addr
  | .v6 addr => if addr >>> 32 = 0xffff then .v4 (addr.setWidth 32) else .v6 addr

/-! ### Readers -/

abbrev Reader (α : Type) := List UInt8 → Option (α × List UInt8)

/-- `char::to_digit`. -/
def toDigit (radix : Nat) (b : UInt8) : Option Nat :=
  let digit := if 48 ≤ b && b ≤ 57 then some (b.toNat - 48)
    else if 97 ≤ b && b ≤ 102 then some (b.toNat - 97 + 10)
    else if 65 ≤ b && b ≤ 70 then some (b.toNat - 65 + 10)
    else none
  digit.filter (· < radix)

/-- A number of at most `maxDigits` digits and at most `max`. -/
def readNumber (radix maxDigits max : Nat) (allowZeroPrefix : Bool) : Reader Nat := fun p =>
  let digits := p.takeWhile fun b => (toDigit radix b).isSome
  let n := digits.foldl (fun n b => n * radix + (toDigit radix b).getD 0) 0
  if digits = [] || digits.length > maxDigits then none
  else if !allowZeroPrefix && digits.head? = some 48 && digits.length > 1 then none
  else if n > max then none
  else some (n, p.drop digits.length)

def readGivenChar (c : UInt8) : Reader Unit
  | b :: p => if b = c then some ((), p) else none
  | [] => none

/-- Each but the first has `sep` before it. -/
def readSeparator {α : Type} (sep : UInt8) (index : Nat) (inner : Reader α) : Reader α := fun p =>
  if index = 0 then inner p else (readGivenChar sep p).bind fun (_, p) => inner p

def dot : UInt8 := 46
def colon : UInt8 := 58

/-- The octets from the one at `index` on. -/
def readOctets (index : Nat) : Nat → Reader (List Nat)
  | 0, p => some ([], p)
  | left + 1, p => do
    let (octet, p) ← readSeparator dot index (readNumber 10 3 255 false) p
    let (octets, p) ← readOctets (index + 1) left p
    return (octet :: octets, p)

def readIpv4Addr : Reader (List Nat) := readOctets 0 4

/-- Up to so many groups, of which the last two may be an IPv4 address; whether they were. -/
def readGroups (index : Nat) : Nat → List UInt8 → List Nat × Bool × List UInt8
  | 0, p => ([], false, p)
  | left + 1, p =>
    match if left = 0 then none else readSeparator colon index readIpv4Addr p with
    | some ([a, b, c, d], p) => ([a * 256 + b, c * 256 + d], true, p)
    | _ =>
      match readSeparator colon index (readNumber 16 4 65535 true) p with
      | some (group, p) =>
        let (groups, ipv4, p) := readGroups (index + 1) left p
        (group :: groups, ipv4, p)
      | none => ([], false, p)

def readIpv6Addr : Reader (List Nat) := fun p =>
  let (head, ipv4, p) := readGroups 0 8 p
  if head.length = 8 then some (head, p)
  -- An IPv4 part does not come before `::`.
  else if ipv4 then none
  else do
    let (_, p) ← readGivenChar colon p
    let (_, p) ← readGivenChar colon p
    let (tail, _, p) := readGroups 0 (8 - (head.length + 1)) p
    return (head ++ List.replicate (8 - head.length - tail.length) 0 ++ tail, p)

/-- `str::parse::<IpAddr>`. -/
def parse (text : List UInt8) : Option IpAddr :=
  let whole := fun (addr, rest) => if rest = ([] : List UInt8) then some addr else none
  let v4 := (readIpv4Addr text).map fun (octets, rest) => (IpAddr.v4 (.ofNat 32 (octets.foldl (· * 256 + ·) 0)), rest)
  let v6 := (readIpv6Addr text).map fun (groups, rest) => (IpAddr.v6 (.ofNat 128 (groups.foldl (· * 65536 + ·) 0)), rest)
  (v4.or v6).bind whole

end IpAddr

end Tgin

/-
# SipHash

The hash of `hash.h` for byte strings, and its version for 32 bytes.
-/
import Libdogecoin.Serialize

namespace Libdogecoin

/-- The four words of a `siphasher`. -/
structure SipState where
  v0 : UInt64
  v1 : UInt64
  v2 : UInt64
  v3 : UInt64

namespace SipState

/-- `ROTL64`. -/
def rotl64 (x b : UInt64) : UInt64 := x <<< b ||| x >>> (64 - b)

/-- `SIPROUND`. -/
def sipRound (s : SipState) : SipState :=
  let v0 := s.v0 + s.v1
  let v1 := rotl64 s.v1 13 ^^^ v0
  let v0 := rotl64 v0 32
  let v2 := s.v2 + s.v3
  let v3 := rotl64 s.v3 16 ^^^ v2
  let v0 := v0 + v3
  let v3 := rotl64 v3 21 ^^^ v0
  let v2 := v2 + v1
  let v1 := rotl64 v1 17 ^^^ v2
  let v2 := rotl64 v2 32
  ⟨v0, v1, v2, v3⟩

/-- `siphasher_set`. -/
def set (k0 k1 : UInt64) : SipState where
  v0 := 0x736f6d6570736575 ^^^ k0
  v1 := 0x646f72616e646f6d ^^^ k1
  v2 := 0x6c7967656e657261 ^^^ k0
  v3 := 0x7465646279746573 ^^^ k1

/-- A word enters the state. -/
def absorb (s : SipState) (t : UInt64) : SipState :=
  let s := sipRound (sipRound { s with v3 := s.v3 ^^^ t })
  { s with v0 := s.v0 ^^^ t }

/-- The last four rounds. -/
def digest (s : SipState) : UInt64 :=
  let s := sipRound (sipRound (sipRound (sipRound { s with v2 := s.v2 ^^^ 0xff })))
  s.v0 ^^^ s.v1 ^^^ s.v2 ^^^ s.v3

end SipState

/-- `siphasher`. -/
structure Siphasher where
  v : SipState
  tmp : UInt64
  count : ℕ

namespace Siphasher

/-- `siphasher_set`. -/
def set (k0 k1 : UInt64) : Siphasher := ⟨SipState.set k0 k1, 0, 0⟩

/-- `siphasher_hash`. -/
def hash : Siphasher → Bytes → Siphasher
  | sh, [] => sh
  | sh, b :: data =>
    let t := sh.tmp ||| b.toUInt64 <<< (8 * (sh.count % 8)).toUInt64
    let c := sh.count + 1
    if c &&& 7 = 0 then hash ⟨sh.v.absorb t, 0, c⟩ data else hash ⟨sh.v, t, c⟩ data

/-- `siphasher_finalize`. -/
def finalize (sh : Siphasher) : UInt64 := (sh.v.absorb (sh.tmp ||| sh.count.toUInt64 <<< 56)).digest

end Siphasher

/-- `get_uint64`. -/
def getUint64 (data : Bytes) (pos : ℕ) : UInt64 :=
  UInt64.ofNat (LittleEndian.ofBytes ((data.drop (8 * pos)).take 8))

/-- `siphash_u256`. -/
def siphashU256 (k0 k1 : UInt64) (val : Uint256) : UInt64 :=
  ((((((SipState.set k0 k1).absorb (getUint64 val.1 0)).absorb (getUint64 val.1 1)).absorb
    (getUint64 val.1 2)).absorb (getUint64 val.1 3)).absorb ((4 : UInt64) <<< 59)).digest

end Libdogecoin

import Mathlib.Data.List.Basic

namespace Aldivine.Core.PlayerId

structure AldivinePlayerId where
  ulid : BitVec 128
deriving DecidableEq

/-- The text form of a ULID, as the `ulid` crate reads and writes it. -/
structure UlidCodec where
  fromString : String → Option (BitVec 128)
  display : BitVec 128 → String

def AldivinePlayerId.fromString (codec : UlidCodec) (s : String) : Option AldivinePlayerId :=
  (codec.fromString s).map AldivinePlayerId.mk

def AldivinePlayerId.display (codec : UlidCodec) (id : AldivinePlayerId) : String :=
  codec.display id.ulid

def ulidLetters : List Char := "0123456789ABCDEFGHJKMNPQRSTVWXYZ".toList

/-- Five bits a letter, in either case. A text that exceeds 128 bits loses its top two. -/
def UlidCodec.crockford : UlidCodec where
  fromString s :=
    if s.utf8ByteSize = 26 then
      s.toList.foldlM (fun value c ↦ (ulidLetters.idxOf? c.toUpper).map
        (fun digit ↦ (value <<< 5) ||| BitVec.ofNat 128 digit)) 0
    else none
  display ulid := String.ofList <| (List.range 26).map
    (fun i ↦ ulidLetters.getD ((ulid >>> (5 * (25 - i))).toNat % 32) '0')

/-- The crate's behaviour on texts that are no ULID, and on the all-zero ULID. -/
def UlidCodec.zero : UlidCodec := ⟨fun _ ↦ none, fun _ ↦ "00000000000000000000000000"⟩

end Aldivine.Core.PlayerId

namespace Aldivine.Core.Error

/-- `AldError`; an I/O error is kept as its text. -/
inductive AldError
  | io (text : String)
  | parse (text : String)
  | config (text : String)
  | protocol (text : String)
  | resource (text : String)
  | identity (text : String)
  | entitlementUnknown
  | rpcTimeout
  | notFound (text : String)
  | capabilityDenied (text : String)
  | invalidArgument (text : String)
  | network (text : String)
  | other (text : String)
deriving DecidableEq

def AldError.display : AldError → String
  | .io text => "io error: " ++ text
  | .parse text => "parse error: " ++ text
  | .config text => "config error: " ++ text
  | .protocol text => "protocol error: " ++ text
  | .resource text => "resource error: " ++ text
  | .identity text => "identity error: " ++ text
  | .entitlementUnknown => "entitlement provider unavailable"
  | .rpcTimeout => "rpc timeout"
  | .notFound text => "not found: " ++ text
  | .capabilityDenied text => "capability denied: " ++ text
  | .invalidArgument text => "invalid argument: " ++ text
  | .network text => "network error: " ++ text
  | .other text => "other: " ++ text

end Aldivine.Core.Error

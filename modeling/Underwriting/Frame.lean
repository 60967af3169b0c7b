import Underwriting.Number.Integer

/-! # Frames

A frame is the length of its payload, as four bytes with the lowest first, and the
payload. An input stream is the bytes that are still to come.
-/
namespace Underwriting.Frame
open scoped CorePower

abbrev Bytes := List UInt8

def maxPayload : UInt32 := 1048576

/-- The four bytes of a length below `2 ^ 32`, lowest first. -/
def encodeLength (n : Nat) : Bytes :=
  [UInt8.ofNat n, UInt8.ofNat (n / 2 ^ (8 : Nat)), UInt8.ofNat (n / 2 ^ (16 : Nat)),
    UInt8.ofNat (n / 2 ^ (24 : Nat))]

def decodeLength (a b c d : UInt8) : Nat :=
  a.toNat + b.toNat * 2 ^ (8 : Nat) + c.toNat * 2 ^ (16 : Nat) + d.toNat * 2 ^ (24 : Nat)

def encode (payload : Bytes) : Bytes := encodeLength payload.length ++ payload

inductive ReadError where
  | headerTruncated
  | emptyFrame
  | tooLong (length : Nat) (limit : UInt32)
  | payloadTruncated
  deriving DecidableEq, Repr

def lengthMessage (length : Nat) (limit : UInt32) : String :=
  "frame length " ++ toString length ++ " exceeds max " ++ toString limit.toNat

def ReadError.message : ReadError → String
  | .headerTruncated => "unexpected EOF while reading frame header"
  | .emptyFrame => "invalid frame length: 0"
  | .tooLong length limit => lengthMessage length limit
  | .payloadTruncated => "unexpected EOF while reading frame payload"

inductive Next where
  | frame (payload : Bytes)
  /-- The stream ended between frames. -/
  | finished
  | failed (e : ReadError)
  deriving DecidableEq, Repr

/-- The next frame of a stream, and the stream after it. A length that is not allowed
leaves the stream behind the header; whatever is truncated is used up. -/
def read (limit : UInt32) (stream : Bytes) : Next × Bytes :=
  match stream with
  | [] => (.finished, [])
  | a :: b :: c :: d :: rest =>
    let length := decodeLength a b c d
    if length = 0 then (.failed .emptyFrame, rest)
    else if length > limit.toNat then (.failed (.tooLong length limit), rest)
    else if rest.length < length then (.failed .payloadTruncated, [])
    else (.frame (rest.take length), rest.drop length)
  | _ => (.failed .headerTruncated, [])

theorem length_lt_of_read {limit : UInt32} {stream payload rest : Bytes}
    (h : read limit stream = (.frame payload, rest)) : rest.length < stream.length := by
  rw [read.eq_def] at h
  split at h
  · cases h
  · dsimp only at h
    split at h
    · cases h
    · split at h
      · cases h
      · split at h
        · cases h
        · obtain ⟨-, rfl⟩ := Prod.mk.inj h
          simp only [List.length_drop, List.length_cons]
          omega
  · cases h

/-- An output stream: what was written to it, and whether it still takes more. -/
structure Output where
  written : Bytes
  healthy : Bool
  deriving DecidableEq, Repr

inductive WriteError where
  | emptyFrame
  | tooLong (length : Nat) (limit : UInt32)
  | brokenStream
  deriving DecidableEq, Repr

def WriteError.message : WriteError → String
  | .emptyFrame => "invalid frame length: 0"
  | .tooLong length limit => lengthMessage length limit
  | .brokenStream => "failed writing frame"

/-- The stream after some bytes. A stream that has failed takes none. -/
def Output.append (out : Output) (bytes : Bytes) : Output :=
  if out.healthy then { out with written := out.written ++ bytes } else out

/-- Writes a frame: what was wrong, if anything, and the stream after it. -/
def write (limit : UInt32) (out : Output) (payload : Bytes) : Option WriteError × Output :=
  if payload.isEmpty then (some .emptyFrame, out)
  else if payload.length > limit.toNat then (some (.tooLong payload.length limit), out)
  else
    let next := (out.append (encodeLength payload.length)).append payload
    (if next.healthy then none else some .brokenStream, next)

end Underwriting.Frame

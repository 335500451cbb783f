/-
This file embeds the plaintext header of media datagrams: its flags, its
encoding and the nonce that is made of it.
-/

import Throcc.Proto
import Mathlib.Algebra.Group.Nat.Defs

namespace Throcc

def datagramPayloadFloor : Nat := 1162
def headerBytes : Nat := 13
def tagBytes : Nat := 16
/-- Ciphertext body per datagram, before the tag. -/
def bodyBytes : Nat := datagramPayloadFloor - headerBytes - tagBytes
/-- The media timestamp at the start of every access unit's first fragment. -/
def timestampBytes : Nat := 4

/-- The flag bits of a datagram. -/
structure Flags where
  bits : UInt8 := 0
deriving DecidableEq, Repr

namespace Flags

def keyframe : Flags := ⟨1⟩
def first : Flags := ⟨2⟩
def last : Flags := ⟨4⟩
def defined : UInt8 := 7

/-- Every bit of `other` is set. -/
def contains (flags other : Flags) : Bool := flags.bits &&& other.bits = other.bits

def with_ (flags other : Flags) (on : Bool) : Flags :=
  if on then ⟨flags.bits ||| other.bits⟩ else ⟨flags.bits &&& ~~~other.bits⟩

def hasReserved (flags : Flags) : Bool := flags.bits &&& ~~~defined ≠ 0

instance : OrOp Flags := ⟨fun flags other => ⟨flags.bits ||| other.bits⟩⟩

end Flags

/-- The plaintext header of every media datagram. Fixed width, big endian. -/
structure Header where
  mediaId : MediaId
  epoch : Epoch
  seq : Nat
  flags : Flags
deriving DecidableEq, Repr

/-- The number that big-endian bytes spell. -/
def ofBytesBe (bytes : List UInt8) : Nat :=
  bytes.foldl (fun value byte => 256 * value + byte.toNat) 0

inductive HeaderError where
  /-- The datagram is shorter than the header. -/
  | short
  /-- Reserved flag bits are set. -/
  | reservedFlags
deriving DecidableEq, Repr

namespace Header

def encode (header : Header) : List UInt8 :=
  bytesBe 4 header.mediaId ++ bytesBe 4 header.epoch ++ bytesBe 4 header.seq ++
    [header.flags.bits]

/-- The AEAD nonce: header bytes 0–11. -/
def nonce (header : Header) : List UInt8 := header.encode.dropLast

/-- Parses the header the way the server does: reserved flag bits are kept but ignored. -/
def parse (datagram : List UInt8) : Except HeaderError Header :=
  if datagram.length < headerBytes then .error .short
  else
    .ok {
      mediaId := ofBytesBe (datagram.take 4)
      epoch := ofBytesBe ((datagram.drop 4).take 4)
      seq := ofBytesBe ((datagram.drop 8).take 4)
      flags := ⟨datagram.getD 12 0⟩ }

/-- Parses the header the way clients do: unknown flag bits are an error. -/
def parseStrict (datagram : List UInt8) : Except HeaderError Header := do
  let header ← parse datagram
  if header.flags.hasReserved then .error .reservedFlags else .ok header

end Header

@[simp] theorem length_bytesBe (count value : Nat) : (bytesBe count value).length = count := by
  induction count generalizing value with
  | zero => rfl
  | succ count inductionHypothesis =>
    rw [bytesBe, List.length_append, inductionHypothesis]
    rfl

theorem ofBytesBe_bytesBe (count value : Nat) :
    ofBytesBe (bytesBe count value) = value % 256 ^ count := by
  induction count generalizing value with
  | zero => exact (Nat.mod_one value).symm
  | succ count inductionHypothesis =>
    have last : (UInt8.ofNat (value % 256)).toNat = value % 256 :=
      UInt8.toNat_ofNat_of_lt' (Nat.mod_lt _ (by decide))
    rw [bytesBe, ofBytesBe, List.foldl_append]
    show 256 * ofBytesBe (bytesBe count (value / 256)) + (UInt8.ofNat (value % 256)).toNat = _
    rw [inductionHypothesis, last, Nat.pow_succ', Nat.mod_mul]
    omega

theorem ofBytesBe_concat (bytes : List UInt8) (byte : UInt8) :
    ofBytesBe (bytes ++ [byte]) = 256 * ofBytesBe bytes + byte.toNat := List.foldl_append

theorem bytesBe_ofBytesBe (bytes : List UInt8) : bytesBe bytes.length (ofBytesBe bytes) = bytes := by
  induction bytes using List.reverseRecOn with
  | nil => rfl
  | append_singleton bytes byte inductionHypothesis =>
    have small : byte.toNat < 256 := byte.toNat_lt
    have high : (256 * ofBytesBe bytes + byte.toNat) / 256 = ofBytesBe bytes := by omega
    have low : (256 * ofBytesBe bytes + byte.toNat) % 256 = byte.toNat := by omega
    rw [List.length_append, List.length_singleton, bytesBe, ofBytesBe_concat, high, low,
      inductionHypothesis, UInt8.ofNat_toNat]

theorem ofBytesBe_lt (bytes : List UInt8) : ofBytesBe bytes < 256 ^ bytes.length := by
  rw [← bytesBe_ofBytesBe bytes, ofBytesBe_bytesBe, length_bytesBe]
  exact Nat.mod_lt _ (Nat.pow_pos (by decide))

theorem bytesBe_inj {count value other : Nat} (small : value < 256 ^ count)
    (small' : other < 256 ^ count) (same : bytesBe count value = bytesBe count other) :
    value = other := by
  have spelled := congrArg ofBytesBe same
  rw [ofBytesBe_bytesBe, ofBytesBe_bytesBe, Nat.mod_eq_of_lt small, Nat.mod_eq_of_lt small']
    at spelled
  exact spelled

/-- Two headers with fields of 32 bits and one nonce agree on media id, epoch and sequence. -/
theorem Header.nonce_inj {header other : Header}
    (small : header.mediaId ≤ u32Max ∧ header.epoch ≤ u32Max ∧ header.seq ≤ u32Max)
    (small' : other.mediaId ≤ u32Max ∧ other.epoch ≤ u32Max ∧ other.seq ≤ u32Max)
    (same : header.nonce = other.nonce) :
    header.mediaId = other.mediaId ∧ header.epoch = other.epoch ∧ header.seq = other.seq := by
  unfold nonce encode at same
  rw [List.dropLast_concat, List.dropLast_concat] at same
  obtain ⟨same, seq⟩ := List.append_inj same (by simp)
  obtain ⟨media, epoch⟩ := List.append_inj same (by simp)
  have within : ∀ value, value ≤ u32Max → value < 256 ^ 4 := fun _ le => Nat.lt_succ_of_le le
  exact ⟨bytesBe_inj (within _ small.1) (within _ small'.1) media,
    bytesBe_inj (within _ small.2.1) (within _ small'.2.1) epoch,
    bytesBe_inj (within _ small.2.2) (within _ small'.2.2) seq⟩

end Throcc

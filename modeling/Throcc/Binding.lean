/-
This file embeds the byte strings that are signed or bound: what a returning
client signs, what an identity key signs for an encryption key, what an
enrollment's key confirmation covers, and what a wrapped sender secret is
bound to. A string determines its purpose and its fields.

A string opens with the label of its purpose, and no label starts another.
Behind it stand fields of fixed width, or each with its length ahead of it, so
that equal strings are cut at equal places and agree field by field.
-/

import Throcc.Frame
import Throcc.KeyManager

namespace Throcc

/-! ### The byte strings -/

/-- What a returning client signs to log in. -/
def authMessage (serverNonce clientNonce exporter : BitVec 256) : List UInt8 :=
  labelBytes "throcc/auth/1" ++ bytesBe 32 serverNonce.toNat ++ bytesBe 32 clientNonce.toNat ++
    bytesBe 32 exporter.toNat

/-- `str::as_bytes`. -/
def utf8Bytes (text : String) : List UInt8 := text.toByteArray.data.toList

/-- Everything both sides must agree on for enrollment to succeed. -/
structure Transcript where
  serverNonce : BitVec 256
  clientNonce : BitVec 256
  codeId : String
  pubkey : PublicKey
  spkiHash : BitVec 256
  exporter : BitVec 256
  pakeA : List UInt8
  pakeB : List UInt8
deriving DecidableEq

namespace Transcript

def parts (transcript : Transcript) : List (List UInt8) :=
  [bytesBe 32 transcript.serverNonce.toNat, bytesBe 32 transcript.clientNonce.toNat,
    utf8Bytes transcript.codeId, bytesBe 32 transcript.pubkey.toNat,
    bytesBe 32 transcript.spkiHash.toNat, bytesBe 32 transcript.exporter.toNat,
    transcript.pakeA, transcript.pakeB]

def toBytes (transcript : Transcript) : List UInt8 :=
  labelBytes "throcc/enroll/1" ++
    transcript.parts.flatMap fun part => bytesBe 4 part.length ++ part

end Transcript

def WrapContext.info (context : WrapContext) : List UInt8 :=
  labelBytes "throcc/sender-key/1" ++ bytesBe 32 context.server.toNat ++
    bytesBe 8 context.room ++ bytesBe 4 context.epoch ++ bytesBe 8 context.sender ++
    bytesBe 8 context.recipient

/-- What a string is signed or confirmed for. -/
inductive Purpose where
  | auth
  | encryptionKey
  | enroll
deriving DecidableEq

/-- The label a purpose's strings open with. -/
def Purpose.label : Purpose → List UInt8
  | auth => labelBytes "throcc/auth/1"
  | encryptionKey => labelBytes "throcc/enc-key/1"
  | enroll => labelBytes "throcc/enroll/1"

/-- What a key signs or a confirmation covers. -/
inductive Vouched where
  | auth (serverNonce clientNonce exporter : BitVec 256)
  | encryptionKey (server : Fingerprint) (user : UserId) (notAfter : Nat) (key : PublicKey)
  | enroll (transcript : Transcript)
deriving DecidableEq

def Vouched.purpose : Vouched → Purpose
  | auth .. => .auth
  | encryptionKey .. => .encryptionKey
  | enroll _ => .enroll

def Vouched.toBytes : Vouched → List UInt8
  | auth serverNonce clientNonce exporter => authMessage serverNonce clientNonce exporter
  | encryptionKey server user notAfter key => encryptionKeyMessage server user notAfter key
  | enroll transcript => transcript.toBytes

/-- The ids and times fit the widths of their types, and the parts of any length the four bytes
that announce one. -/
def Vouched.Sized : Vouched → Prop
  | auth .. => True
  | encryptionKey _ user notAfter _ => user < 2 ^ 64 ∧ notAfter < 2 ^ 64
  | enroll transcript => (utf8Bytes transcript.codeId).length < 2 ^ 32 ∧
      transcript.pakeA.length < 2 ^ 32 ∧ transcript.pakeB.length < 2 ^ 32

/-- The ids and the epoch fit the widths of their types. -/
def WrapContext.Sized (context : WrapContext) : Prop :=
  context.room < 2 ^ 64 ∧ context.epoch < 2 ^ 32 ∧ context.sender < 2 ^ 64 ∧
    context.recipient < 2 ^ 64

/-! ### Fields of fixed width -/

theorem bytesBe_toNat_inj {value other : BitVec 256}
    (same : bytesBe 32 value.toNat = bytesBe 32 other.toNat) : value = other :=
  BitVec.eq_of_toNat_eq (bytesBe_inj (Nat.lt_of_lt_of_eq value.isLt (by decide))
    (Nat.lt_of_lt_of_eq other.isLt (by decide)) same)

theorem utf8Bytes_inj {text other : String} (same : utf8Bytes text = utf8Bytes other) :
    text = other := by
  unfold utf8Bytes at same
  exact String.toByteArray_inj.mp (ByteArray.ext (Array.toList_inj.mp same))

theorem authMessage_inj {serverNonce clientNonce exporter serverNonce' clientNonce' exporter' : BitVec 256}
    (same : authMessage serverNonce clientNonce exporter =
      authMessage serverNonce' clientNonce' exporter') :
    serverNonce = serverNonce' ∧ clientNonce = clientNonce' ∧ exporter = exporter' := by
  unfold authMessage at same
  obtain ⟨same, exporters⟩ := List.append_inj' same (by simp)
  obtain ⟨same, clients⟩ := List.append_inj' same (by simp)
  exact ⟨bytesBe_toNat_inj (List.append_cancel_left same), bytesBe_toNat_inj clients,
    bytesBe_toNat_inj exporters⟩

theorem encryptionKeyMessage_inj {server server' : Fingerprint} {user user' : UserId}
    {notAfter notAfter' : Nat} {key key' : PublicKey}
    (fits : user < 2 ^ 64 ∧ notAfter < 2 ^ 64) (fits' : user' < 2 ^ 64 ∧ notAfter' < 2 ^ 64)
    (same : encryptionKeyMessage server user notAfter key =
      encryptionKeyMessage server' user' notAfter' key') :
    server = server' ∧ user = user' ∧ notAfter = notAfter' ∧ key = key' := by
  unfold encryptionKeyMessage at same
  obtain ⟨same, keys⟩ := List.append_inj' same (by simp)
  obtain ⟨same, times⟩ := List.append_inj' same (by simp)
  obtain ⟨same, users⟩ := List.append_inj' same (by simp)
  exact ⟨bytesBe_toNat_inj (List.append_cancel_left same), bytesBe_inj fits.1 fits'.1 users,
    bytesBe_inj fits.2 fits'.2 times, bytesBe_toNat_inj keys⟩

/-- A wrapped secret's context is determined by the bytes it is bound to. -/
theorem WrapContext.info_inj {context other : WrapContext} (fits : context.Sized)
    (fits' : other.Sized) (same : context.info = other.info) : context = other := by
  unfold info at same
  obtain ⟨same, recipients⟩ := List.append_inj' same (by simp)
  obtain ⟨same, senders⟩ := List.append_inj' same (by simp)
  obtain ⟨same, epochs⟩ := List.append_inj' same (by simp)
  obtain ⟨same, rooms⟩ := List.append_inj' same (by simp)
  obtain ⟨room, epoch, sender, recipient⟩ := fits
  obtain ⟨room', epoch', sender', recipient'⟩ := fits'
  have server := bytesBe_toNat_inj (List.append_cancel_left same)
  have rooms := bytesBe_inj room room' rooms
  have epochs := bytesBe_inj epoch epoch' epochs
  have senders := bytesBe_inj sender sender' senders
  have recipients := bytesBe_inj recipient recipient' recipients
  cases context
  cases other
  subst server rooms epochs senders recipients
  rfl

/-! ### Fields with their lengths ahead -/

/-- Parts written each behind its length are read back part by part. -/
theorem flatMap_prefixed_inj {parts other : List (List UInt8)}
    (short : ∀ part ∈ parts, part.length < 2 ^ 32) (short' : ∀ part ∈ other, part.length < 2 ^ 32)
    (same : parts.flatMap (fun part => bytesBe 4 part.length ++ part) =
      other.flatMap fun part => bytesBe 4 part.length ++ part) : parts = other := by
  -- along the first list, whose next length cuts both strings at one place
  induction parts generalizing other with
  | nil =>
    cases other with
    | nil => rfl
    | cons part rest =>
      have lengths := congrArg List.length same
      rw [List.flatMap_nil, List.flatMap_cons, List.length_append, List.length_append,
        length_bytesBe, List.length_nil] at lengths
      omega
  | cons part rest inductionHypothesis =>
    cases other with
    | nil =>
      have lengths := congrArg List.length same
      rw [List.flatMap_nil, List.flatMap_cons, List.length_append, List.length_append,
        length_bytesBe, List.length_nil] at lengths
      omega
    | cons part' rest' =>
      rw [List.flatMap_cons, List.flatMap_cons, List.append_assoc, List.append_assoc] at same
      obtain ⟨lengths, same⟩ := List.append_inj same (by simp)
      have length : part.length = part'.length :=
        bytesBe_inj (short part List.mem_cons_self) (short' part' List.mem_cons_self) lengths
      obtain ⟨rfl, rests⟩ := List.append_inj same length
      rw [inductionHypothesis (fun part member => short part (List.mem_cons_of_mem _ member))
        (fun part member => short' part (List.mem_cons_of_mem _ member)) rests]

theorem Transcript.parts_short {transcript : Transcript}
    (fits : (Vouched.enroll transcript).Sized) :
    ∀ part ∈ transcript.parts, part.length < 2 ^ 32 := by
  obtain ⟨codeId, pakeA, pakeB⟩ := fits
  have fixed : ∀ value, (bytesBe 32 value).length < 2 ^ 32 := by
    intro value
    rw [length_bytesBe]
    decide
  simp only [parts, List.forall_mem_cons, List.not_mem_nil, false_implies, implies_true, and_true]
  exact ⟨fixed _, fixed _, codeId, fixed _, fixed _, fixed _, pakeA, pakeB⟩

theorem Transcript.toBytes_inj {transcript other : Transcript}
    (fits : (Vouched.enroll transcript).Sized) (fits' : (Vouched.enroll other).Sized)
    (same : transcript.toBytes = other.toBytes) : transcript = other := by
  have same := flatMap_prefixed_inj (parts_short fits) (parts_short fits')
    (List.append_cancel_left same)
  simp only [parts, List.cons.injEq, and_true] at same
  obtain ⟨servers, clients, codes, pubkeys, hashes, exporters, pakesA, pakesB⟩ := same
  have servers := bytesBe_toNat_inj servers
  have clients := bytesBe_toNat_inj clients
  have codes := utf8Bytes_inj codes
  have pubkeys := bytesBe_toNat_inj pubkeys
  have hashes := bytesBe_toNat_inj hashes
  have exporters := bytesBe_toNat_inj exporters
  cases transcript
  cases other
  subst servers clients codes pubkeys hashes exporters pakesA pakesB
  rfl

/-! ### Purposes -/

/-- No label starts another. -/
theorem Purpose.eq_of_label_prefix {purpose other : Purpose}
    (starts : purpose.label <+: other.label) : purpose = other := by
  cases purpose <;> cases other
  case auth.auth | encryptionKey.encryptionKey | enroll.enroll => rfl
  all_goals exact absurd starts (by decide)

theorem Vouched.label_prefix (vouched : Vouched) : vouched.purpose.label <+: vouched.toBytes := by
  cases vouched with
  | auth =>
    exact ⟨_, by rw [toBytes, authMessage, List.append_assoc, List.append_assoc]; rfl⟩
  | encryptionKey =>
    exact ⟨_, by
      rw [toBytes, encryptionKeyMessage, List.append_assoc, List.append_assoc, List.append_assoc]
      rfl⟩
  | enroll => exact ⟨_, rfl⟩

/-- A string determines what it is signed or confirmed for. -/
theorem Vouched.purpose_inj {vouched other : Vouched} (same : vouched.toBytes = other.toBytes) :
    vouched.purpose = other.purpose := by
  have starts := vouched.label_prefix
  rw [same] at starts
  rcases List.prefix_or_prefix_of_prefix starts other.label_prefix with first | second
  · exact Purpose.eq_of_label_prefix first
  · exact (Purpose.eq_of_label_prefix second).symm

theorem Vouched.toBytes_inj {vouched other : Vouched} (fits : vouched.Sized)
    (fits' : other.Sized) (same : vouched.toBytes = other.toBytes) : vouched = other := by
  have purpose := purpose_inj same
  cases vouched <;> cases other
  case auth.auth =>
    obtain ⟨rfl, rfl, rfl⟩ := authMessage_inj same
    rfl
  case encryptionKey.encryptionKey =>
    obtain ⟨rfl, rfl, rfl, rfl⟩ := encryptionKeyMessage_inj fits fits' same
    rfl
  case enroll.enroll => rw [Transcript.toBytes_inj fits fits' same]
  -- strings of two purposes differ in their labels
  all_goals cases purpose

/-- A string that is signed or confirmed has one purpose and one choice of its fields, and what
a wrapped secret is bound to has one context. -/
theorem signed_unambiguous :
    (∀ vouched other : Vouched, vouched.Sized → other.Sized → vouched.toBytes = other.toBytes →
      vouched = other) ∧
    ∀ context other : WrapContext, context.Sized → other.Sized → context.info = other.info →
      context = other :=
  ⟨fun _ _ => Vouched.toBytes_inj, fun _ _ => WrapContext.info_inj⟩

theorem signed_unambiguous_typed :
    Vouched.enroll ⟨1, 2, normalize "k-7q", 3, 4, 5, [6], []⟩ =
        .enroll ⟨1, 2, "K7Q", 3, 4, 5, [6], []⟩ ∧
      WrapContext.mk 1 2 (1 + 2) 4 5 = ⟨1, 2, 3, 4, 5⟩ :=
  ⟨signed_unambiguous.1 _ _ ⟨by decide, by decide, by decide⟩ ⟨by decide, by decide, by decide⟩
      rfl,
    signed_unambiguous.2 _ _ ⟨by decide, by decide, by decide, by decide⟩
      ⟨by decide, by decide, by decide, by decide⟩ rfl⟩

end Throcc

import Wobble.Framework.Codec

namespace Codec

open Rust

variable {ε α : Type}

/-- Reads a value off the front of the bytes and gives what is left. -/
abbrev Decoder (ε α : Type) : Type := List UInt8 → Res ε (α × List UInt8)

abbrev Encoder (ε α : Type) : Type := α → Res ε (List UInt8)

/-- So many elements, one after the other. -/
def decodeMany (element : Decoder ε α) : Nat → Decoder ε (List α)
  | 0, src => .ok ([], src)
  | n + 1, src => do
    let (a, src) ← element src
    let (as, src) ← decodeMany element n src
    return (a :: as, src)

/-- All that is read is in `P`. -/
def Yields (decode : Decoder ε α) (P : α → Prop) : Prop :=
  ∀ src a rest, decode src = .ok (a, rest) → P a

/-- What is written of a value in `P` is read back as it, whatever follows. -/
def Inverts {ε' : Type} (P : α → Prop) (encode : Encoder ε' α) (decode : Decoder ε α) : Prop :=
  ∀ a, P a → ∃ bytes, encode a = .ok bytes ∧ ∀ rest, decode (bytes ++ rest) = .ok (a, rest)

theorem decodeMany_yields {P : α → Prop} {decode : Decoder ε α} (h : Yields decode P) (n : Nat) :
    Yields (decodeMany decode n) fun as => as.length = n ∧ ∀ a ∈ as, P a := by
  induction n with
  | zero =>
    intro src as rest heq
    cases heq
    exact ⟨rfl, by simp⟩
  | succ n ih =>
    intro src as rest heq
    obtain ⟨⟨a, src₁⟩, ha, heq⟩ := (Res.bind_eq_ok _ _ _).mp heq
    obtain ⟨⟨as', src₂⟩, has, heq⟩ := (Res.bind_eq_ok _ _ _).mp heq
    cases heq
    obtain ⟨hlen, hall⟩ := ih _ _ _ has
    exact ⟨congrArg (· + 1) hlen, List.forall_mem_cons.mpr ⟨h _ _ _ ha, hall⟩⟩

theorem decodeMany_inverts {ε' : Type} {P : α → Prop} {encode : Encoder ε' α}
    {decode : Decoder ε α} (h : Inverts P encode decode) (as : List α) (has : ∀ a ∈ as, P a) :
    ∃ bytes, encodeAll encode as = .ok bytes ∧
      ∀ rest, decodeMany decode as.length (bytes ++ rest) = .ok (as, rest) := by
  induction as with
  | nil => exact ⟨[], rfl, fun rest => rfl⟩
  | cons a as ih =>
    obtain ⟨ha, has⟩ := List.forall_mem_cons.mp has
    obtain ⟨first, hfirst, hread⟩ := h a ha
    obtain ⟨bytes, hbytes, hreads⟩ := ih has
    refine ⟨first ++ bytes, ?_, fun rest => ?_⟩
    · rw [encodeAll, hfirst, Res.ok_bind, hbytes]
      rfl
    · rw [List.append_assoc, List.length_cons, decodeMany, hread, Res.ok_bind]
      dsimp only
      rw [hreads]
      rfl

end Codec

/-- The crate `bincode` in one configuration, as derived code calls it. -/
class Bincode where
  DecodeError : Type
  EncodeError : Type
  decodeLen : Codec.Decoder DecodeError Nat
  decodeString : Codec.Decoder DecodeError (List UInt8)
  decodeSeq {α : Type} : Codec.Decoder DecodeError α → Codec.Decoder DecodeError (List α)
  decodeArray (n : Nat) : Codec.Decoder DecodeError (List.Vector UInt8 n)
  encodeLen : Nat → List UInt8
  encodeString : Codec.Encoder EncodeError (List UInt8)
  encodeSeq {α : Type} : Codec.Encoder EncodeError α → Codec.Encoder EncodeError (List α)
  encodeArray {n : Nat} : Codec.Encoder EncodeError (List.Vector UInt8 n)

namespace Bincode

open Rust Codec

/-- What is assumed of the standard configuration. A length of at most 250 is one byte; every other
one takes at least a byte and is a `u64`. A text is read into a buffer of the length it announces,
which is set aside first: `memory` says for which lengths that succeeds, and where it does not the
process ends. The bytes of an array are written as they are. -/
structure Standard [Bincode] (memory : Nat → Bool) : Prop where
  decodeLen_byte : ∀ (b : UInt8) (src : List UInt8), b.toNat ≤ 250 →
    decodeLen (b :: src) = .ok (b.toNat, src)
  decodeLen_consumes : ∀ src n rest, decodeLen src = .ok (n, rest) → rest.length < src.length
  decodeLen_lt : ∀ src n rest, decodeLen src = .ok (n, rest) → n < 2^64
  decodeLen_returns : ∀ src, (decodeLen src).Returned
  decodeLen_encodeLen : ∀ n rest, n < 2^64 → decodeLen (encodeLen n ++ rest) = .ok (n, rest)
  decodeString_eq_ok : ∀ src text rest, decodeString src = .ok (text, rest) ↔
    decodeLen src = .ok (text.length, text ++ rest) ∧ memory text.length = true ∧
      text.toByteArray.validateUTF8 = true
  decodeString_eq_panic : ∀ src, (∃ m, decodeString src = .error (.panic m)) ↔
    ∃ n rest, decodeLen src = .ok (n, rest) ∧ memory n = false
  decodeSeq_eq : ∀ {α : Type} (element : Decoder DecodeError α) src,
    decodeSeq element src = decodeLen src >>= fun read => decodeMany element read.1 read.2
  decodeArray_eq_ok : ∀ n src (bytes : List.Vector UInt8 n) rest,
    decodeArray n src = .ok (bytes, rest) ↔ src = bytes.toList ++ rest
  decodeArray_returns : ∀ n src, (decodeArray n src).Returned
  encodeString_eq : ∀ text, encodeString text = .ok (encodeLen text.length ++ text)
  encodeSeq_eq : ∀ {α : Type} (element : Encoder EncodeError α) as,
    encodeSeq element as = encodeAll element as >>= fun bytes => .ok (encodeLen as.length ++ bytes)
  encodeArray_eq : ∀ {n : Nat} (bytes : List.Vector UInt8 n), encodeArray bytes = .ok bytes.toList

/-- A text that is valid, and for whose length there is memory. -/
structure Storable (memory : Nat → Bool) (text : List UInt8) : Prop where
  valid : text.toByteArray.validateUTF8 = true
  length_lt : text.length < 2^64
  memory : memory text.length = true

namespace Standard

variable [Bincode] {memory : Nat → Bool} (h : Standard memory)

include h

theorem decodeString_inverts :
    Inverts (Storable memory) encodeString (decodeString : Decoder DecodeError _) := by
  intro text htext
  refine ⟨_, h.encodeString_eq text, fun rest => ?_⟩
  rw [h.decodeString_eq_ok, List.append_assoc]
  exact ⟨h.decodeLen_encodeLen _ _ htext.length_lt, htext.memory, htext.valid⟩

theorem decodeString_yields :
    Yields (decodeString : Decoder DecodeError _) (Storable memory) := by
  intro src text rest heq
  obtain ⟨hlen, hmemory, hvalid⟩ := (h.decodeString_eq_ok src text rest).mp heq
  exact ⟨hvalid, h.decodeLen_lt _ _ _ hlen, hmemory⟩

theorem decodeArray_inverts (n : Nat) :
    Inverts (fun _ => True) encodeArray (decodeArray n : Decoder DecodeError _) := by
  intro bytes _
  exact ⟨_, h.encodeArray_eq bytes, fun rest => (h.decodeArray_eq_ok n _ bytes rest).mpr rfl⟩

variable {α : Type} {P : α → Prop} {encode : Encoder EncodeError α} {decode : Decoder DecodeError α}

theorem decodeSeq_inverts (helement : Inverts P encode decode) :
    Inverts (fun as : List α => as.length < 2^64 ∧ ∀ a ∈ as, P a) (encodeSeq encode)
      (decodeSeq decode) := by
  intro as has
  obtain ⟨bytes, hbytes, hreads⟩ := decodeMany_inverts helement as has.2
  refine ⟨encodeLen as.length ++ bytes, ?_, fun rest => ?_⟩
  · rw [h.encodeSeq_eq, hbytes, Res.ok_bind]
  · rw [h.decodeSeq_eq, List.append_assoc, h.decodeLen_encodeLen _ _ has.1, Res.ok_bind]
    exact hreads rest

theorem decodeSeq_yields (helement : Yields decode P) :
    Yields (decodeSeq decode) fun as => as.length < 2^64 ∧ ∀ a ∈ as, P a := by
  intro src as rest heq
  rw [h.decodeSeq_eq] at heq
  obtain ⟨⟨n, src₁⟩, hn, heq⟩ := (Res.bind_eq_ok _ _ _).mp heq
  obtain ⟨hlen, hall⟩ := decodeMany_yields helement n _ _ _ heq
  exact ⟨hlen ▸ h.decodeLen_lt _ _ _ hn, hall⟩

end Standard

end Bincode

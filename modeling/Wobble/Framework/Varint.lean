import Wobble.Framework.Bincode

namespace Varint

open Rust Codec

inductive DecodeError where
  | unexpectedEnd
  | invalidIntegerType
  | utf8

def readBytes (n : Nat) : Decoder DecodeError (List UInt8) := fun src =>
  if n ≤ src.length then .ok (src.take n, src.drop n) else .error (.err .unexpectedEnd)

/-- The width of the little-endian integer behind a marker. -/
def width (marker : UInt8) : Option Nat :=
  if marker = 251 then some 2
  else if marker = 252 then some 4
  else if marker = 253 then some 8
  else none

def decodeLen : Decoder DecodeError Nat
  | [] => .error (.err .unexpectedEnd)
  | marker :: src =>
    if marker.toNat ≤ 250 then .ok (marker.toNat, src)
    else do
      let n ← Res.okOr .invalidIntegerType (width marker)
      let (bytes, src) ← readBytes n src
      return (ofBeBytes bytes.reverse, src)

def decodeString (memory : Nat → Bool) : Decoder DecodeError (List UInt8) := fun src => do
  let (len, src) ← decodeLen src
  if memory len then do
    let (bytes, src) ← readBytes len src
    if bytes.toByteArray.validateUTF8 then .ok (bytes, src) else .error (.err .utf8)
  else .error (.panic "memory allocation failed")

def decodeArray (n : Nat) : Decoder DecodeError (List.Vector UInt8 n) := fun src =>
  if h : n ≤ src.length then .ok (⟨src.take n, List.length_take_of_le h⟩, src.drop n)
  else .error (.err .unexpectedEnd)

/-- The shortest way to write a length. -/
def encodeLen (n : Nat) : List UInt8 :=
  if n ≤ 250 then [UInt8.ofNat n]
  else if n < 2^16 then 251 :: toLeBytes 2 n
  else if n < 2^32 then 252 :: toLeBytes 4 n
  else 253 :: toLeBytes 8 n

/-- A codec that meets what is assumed of the standard configuration, for runs on given bytes. -/
@[reducible] def bincode (memory : Nat → Bool) : Bincode where
  DecodeError := DecodeError
  EncodeError := Empty
  decodeLen := decodeLen
  decodeString := decodeString memory
  decodeSeq element := fun src => decodeLen src >>= fun read => decodeMany element read.1 read.2
  decodeArray := decodeArray
  encodeLen := encodeLen
  encodeString text := .ok (encodeLen text.length ++ text)
  encodeSeq element as :=
    encodeAll element as >>= fun bytes => .ok (encodeLen as.length ++ bytes)
  encodeArray bytes := .ok bytes.toList

theorem readBytes_eq_ok (n : Nat) (src bytes rest : List UInt8) :
    readBytes n src = .ok (bytes, rest) ↔ bytes.length = n ∧ src = bytes ++ rest := by
  rw [readBytes]
  split_ifs with h
  · rw [Except.ok.injEq, Prod.mk.injEq]
    constructor
    · rintro ⟨rfl, rfl⟩
      exact ⟨List.length_take_of_le h, (List.take_append_drop n src).symm⟩
    · rintro ⟨rfl, rfl⟩
      exact ⟨List.take_left, List.drop_left⟩
  · refine iff_of_false (by simp) fun hs => h ?_
    rw [hs.2, List.length_append]
    omega

theorem readBytes_returns (n : Nat) (src : List UInt8) : (readBytes n src).Returned := by
  intro m
  rw [readBytes]
  split_ifs <;> simp

theorem width_spec {marker : UInt8} {n : Nat} (h : width marker = some n) :
    250 < marker.toNat ∧ n ≤ 8 := by
  rw [width] at h
  split_ifs at h with h1 h2 h3
  · cases h
    exact ⟨by rw [h1]; decide, by decide⟩
  · cases h
    exact ⟨by rw [h2]; decide, by decide⟩
  · cases h
    exact ⟨by rw [h3]; decide, by decide⟩

theorem decodeLen_byte (b : UInt8) (src : List UInt8) (h : b.toNat ≤ 250) :
    decodeLen (b :: src) = .ok (b.toNat, src) := if_pos h

theorem decodeLen_marked {marker : UInt8} {n : Nat} (h : width marker = some n)
    (src : List UInt8) :
    decodeLen (marker :: src) =
      readBytes n src >>= fun read => .ok (ofBeBytes read.1.reverse, read.2) := by
  have hbig := (width_spec h).1
  rw [decodeLen, if_neg (by omega), h]
  rfl

theorem decodeLen_unmarked {marker : UInt8} (hbig : 250 < marker.toNat) (h : width marker = none)
    (src : List UInt8) : decodeLen (marker :: src) = .error (.err .invalidIntegerType) := by
  rw [decodeLen, if_neg (by omega), h]
  rfl

/-- The bytes of a length, and its value. -/
theorem decodeLen_cases (src : List UInt8) :
    (∃ e, decodeLen src = .error (.err e)) ∨
      ∃ n rest, decodeLen src = .ok (n, rest) ∧ rest.length < src.length ∧ n < 2^64 := by
  cases src with
  | nil => exact .inl ⟨_, rfl⟩
  | cons marker src =>
    obtain hbig | hsmall := Nat.lt_or_ge 250 marker.toNat
    · cases hw : width marker with
      | none => exact .inl ⟨_, decodeLen_unmarked hbig hw src⟩
      | some k =>
        rw [decodeLen_marked hw]
        cases hread : readBytes k src with
        | error fault =>
          cases fault with
          | err e => exact .inl ⟨e, rfl⟩
          | panic m => exact absurd hread (readBytes_returns k src m)
        | ok read =>
          obtain ⟨hlen, rfl⟩ := (readBytes_eq_ok k src read.1 read.2).mp hread
          refine .inr ⟨_, _, rfl, ?_, ?_⟩
          · simp only [List.length_cons, List.length_append]
            omega
          · have hvalue := ofBeBytes_lt read.1.reverse
            have hle : 256 ^ k ≤ 256 ^ 8 := Nat.pow_le_pow_right (by decide) (width_spec hw).2
            rw [List.length_reverse, hlen] at hvalue
            omega
    · refine .inr ⟨_, _, decodeLen_byte marker src hsmall, by simp, ?_⟩
      omega

theorem decodeLen_toLeBytes {marker : UInt8} {k n : Nat} (hw : width marker = some k)
    (h : n < 256 ^ k) (rest : List UInt8) :
    decodeLen (marker :: toLeBytes k n ++ rest) = .ok (n, rest) := by
  have hread : readBytes k (toLeBytes k n ++ rest) = .ok (toLeBytes k n, rest) :=
    (readBytes_eq_ok k _ _ rest).mpr ⟨toLeBytes_length k n, rfl⟩
  rw [List.cons_append, decodeLen_marked hw, hread, Res.ok_bind]
  dsimp only
  rw [ofBeBytes_toLeBytes k n h]

theorem decodeLen_encodeLen (n : Nat) (rest : List UInt8) (h : n < 2^64) :
    decodeLen (encodeLen n ++ rest) = .ok (n, rest) := by
  rw [encodeLen]
  split_ifs with h250 h16 h32
  · have hbyte : (UInt8.ofNat n).toNat = n := by
      rw [UInt8.toNat_ofNat']
      omega
    have hlen := decodeLen_byte (UInt8.ofNat n) rest (by omega)
    rwa [hbyte] at hlen
  · exact decodeLen_toLeBytes rfl h16 rest
  · exact decodeLen_toLeBytes rfl h32 rest
  · exact decodeLen_toLeBytes rfl h rest

section Strings

variable (memory : Nat → Bool)

/-- What the reader of a text does once it knows the length. -/
theorem decodeString_of_len {n : Nat} {src rest : List UInt8} (h : decodeLen src = .ok (n, rest)) :
    decodeString memory src =
      if memory n then
        readBytes n rest >>= fun read =>
          if read.1.toByteArray.validateUTF8 then .ok read else .error (.err .utf8)
      else .error (.panic "memory allocation failed") := by
  rw [decodeString, h]
  rfl

theorem decodeString_eq_ok (src text rest : List UInt8) :
    decodeString memory src = .ok (text, rest) ↔
      decodeLen src = .ok (text.length, text ++ rest) ∧ memory text.length = true ∧
        text.toByteArray.validateUTF8 = true := by
  constructor
  · intro h
    obtain ⟨⟨n, after⟩, hlen, -⟩ := (Res.bind_eq_ok _ _ _).mp h
    rw [decodeString_of_len memory hlen] at h
    split_ifs at h with hm
    obtain ⟨⟨bytes, src'⟩, hread, h⟩ := (Res.bind_eq_ok _ _ _).mp h
    split_ifs at h with hutf
    cases h
    obtain ⟨rfl, rfl⟩ := (readBytes_eq_ok _ _ _ _).mp hread
    exact ⟨hlen, hm, hutf⟩
  · intro h
    obtain ⟨hlen, hm, hutf⟩ := h
    rw [decodeString_of_len memory hlen, if_pos hm,
      (readBytes_eq_ok _ _ text rest).mpr ⟨rfl, rfl⟩, Res.ok_bind, if_pos hutf]

theorem decodeString_eq_panic (src : List UInt8) :
    (∃ m, decodeString memory src = .error (.panic m)) ↔
      ∃ n rest, decodeLen src = .ok (n, rest) ∧ memory n = false := by
  constructor
  · intro h
    obtain ⟨m, h⟩ := h
    obtain ⟨e, hlen⟩ | ⟨n, rest, hlen, -⟩ := decodeLen_cases src
    · rw [decodeString, hlen] at h
      cases h
    · rw [decodeString_of_len memory hlen] at h
      split_ifs at h with hm
      · cases hread : readBytes n rest with
        | ok read =>
          rw [hread, Res.ok_bind] at h
          split_ifs at h
          cases h
        | error fault =>
          rw [hread] at h
          cases h
          exact absurd hread (readBytes_returns n rest m)
      · exact ⟨n, rest, hlen, by simpa using hm⟩
  · intro h
    obtain ⟨n, rest, hlen, hm⟩ := h
    rw [decodeString_of_len memory hlen, hm]
    exact ⟨_, rfl⟩

end Strings

theorem decodeArray_eq_ok (n : Nat) (src : List UInt8) (bytes : List.Vector UInt8 n)
    (rest : List UInt8) : decodeArray n src = .ok (bytes, rest) ↔ src = bytes.toList ++ rest := by
  have hlen := bytes.toList_length
  rw [decodeArray]
  split_ifs with h
  · constructor
    · intro heq
      cases heq
      exact (List.take_append_drop n src).symm
    · intro heq
      subst heq
      congr 2
      · apply List.Vector.toList_injective
        exact List.take_left' hlen
      · exact List.drop_left' hlen
  · refine iff_of_false (by simp) fun heq => h ?_
    rw [heq, List.length_append, hlen]
    omega

theorem bincode_standard (memory : Nat → Bool) : @Bincode.Standard (bincode memory) memory := by
  refine @Bincode.Standard.mk (bincode memory) memory decodeLen_byte ?_ ?_ ?_ decodeLen_encodeLen
    (decodeString_eq_ok memory) (decodeString_eq_panic memory) (fun _ _ => rfl) decodeArray_eq_ok
    ?_ (fun _ => rfl) (fun _ _ => rfl) fun _ => rfl
  · intro src n rest h
    obtain ⟨e, he⟩ | ⟨n', rest', hlen, hshort, -⟩ := decodeLen_cases src
    · cases he.symm.trans h
    · cases hlen.symm.trans h
      exact hshort
  · intro src n rest h
    obtain ⟨e, he⟩ | ⟨n', rest', hlen, -, hlt⟩ := decodeLen_cases src
    · cases he.symm.trans h
    · cases hlen.symm.trans h
      exact hlt
  · intro src m h
    obtain ⟨e, he⟩ | ⟨n', rest', hlen, -⟩ := decodeLen_cases src
    · cases he.symm.trans h
    · cases hlen.symm.trans h
  · intro n src m h
    have heq : decodeArray n src = .error (.panic m) := h
    rw [decodeArray] at heq
    split_ifs at heq
    cases heq

end Varint

import Wobble.Store.Tables

namespace Wobble

open Rust

inductive AliasError where
  | invalidPublicKey
  deriving DecidableEq

def encodePublicKey (bytes : Bytes32) : Text := ⟨Hex.render bytes.toList⟩

/-- The loop of `parse_public_key_hex`, which overwrites the zero array from `index` on. -/
def fillPairs (bytes : Bytes32) (index : Nat) : Bytes → Res AliasError Bytes32
  | a :: b :: rest => do
    if !Hex.isUtf8Pair a b then .error (.err .invalidPublicKey)
    let byte ← Res.okOr .invalidPublicKey (Hex.fromStrRadix [a, b])
    if h : index < 32 then fillPairs (bytes.set ⟨index, h⟩ byte) (index + 1) rest
    else .error (.panic "index out of bounds")
  | _ => .ok bytes

def parsePublicKeyHex (value : Text) : Res AliasError Bytes32 :=
  if value.utf8.length ≠ 64 then .error (.err .invalidPublicKey)
  else fillPairs zeroBytes 0 value.utf8

/-- The text `invalid <name>: <value>`. -/
def invalidText (name : String) (value : Text) : Text :=
  ⟨("invalid " ++ name ++ ": ").toUTF8.toList ++ value.utf8⟩

def parseHexVec (value : Text) (name : String) : Res Text Bytes :=
  Res.okOr (invalidText name value) (Hex.decode value.utf8)

def parseHexArray (N : Nat) (value : Text) (name : String) : Res Text (List.Vector UInt8 N) := do
  let bytes ← parseHexVec value name
  if h : bytes.length = N then .ok ⟨bytes, h⟩ else .error (.err (invalidText name value))

def encodeHex (bytes : Bytes) : Text := ⟨Hex.render bytes⟩

namespace Text

/-- Exactly 64 hexadecimal digits. -/
def HexDigits (value : Text) : Prop :=
  value.utf8.length = 64 ∧ ∀ c ∈ value.utf8, Hex.IsDigit c

/-- The 64 bytes fall into pairs of two digits, or of a plus sign and one digit; some pair has the
sign. -/
def Signed (value : Text) : Prop :=
  value.utf8.length = 64 ∧ (∀ p ∈ Hex.pairs value.utf8, Hex.ReadPair p) ∧
    ∃ p ∈ Hex.pairs value.utf8, p.1 = 43

instance (value : Text) : Decidable value.HexDigits := by
  unfold HexDigits
  infer_instance

/-- What all four parsers read, signs included. -/
def Reads (value : Text) (bytes : Bytes32) : Prop :=
  value.utf8.length = 64 ∧ Hex.decodePairs value.utf8 = some bytes.toList

theorem exists_reads_iff (value : Text) : (∃ bytes, value.Reads bytes) ↔
    value.utf8.length = 64 ∧ ∀ p ∈ Hex.pairs value.utf8, Hex.ReadPair p := by
  rw [← Hex.decodePairs_isSome]
  constructor
  · intro h
    obtain ⟨bytes, hlen, hread⟩ := h
    exact ⟨hlen, bytes.toList, hread⟩
  · intro h
    obtain ⟨hlen, bytes, hread⟩ := h
    have h32 := Hex.decodePairs_length _ _ hread
    rw [hlen] at h32
    exact ⟨⟨bytes, h32⟩, hlen, hread⟩

theorem reads_unique {value : Text} {bytes bytes' : Bytes32} (h : value.Reads bytes)
    (h' : value.Reads bytes') : bytes = bytes' :=
  List.Vector.toList_injective (Option.some.inj (h.2.symm.trans h'.2))

/-- Digits are read as the bytes they are the rendering of, up to letter case. -/
theorem HexDigits.reads {value : Text} (h : value.HexDigits) : ∃ bytes : Bytes32,
    value.Reads bytes ∧ value.utf8.map Hex.lower = Hex.render bytes.toList := by
  obtain ⟨hlen, hdigits⟩ := h
  obtain ⟨bytes, hread, hlower⟩ := Hex.decodePairs_digits value.utf8 (by omega) hdigits
  have h32 := Hex.decodePairs_length _ _ hread
  rw [hlen] at h32
  exact ⟨⟨bytes, h32⟩, ⟨hlen, hread⟩, hlower⟩

/-- A text that is read is made of digits, or has a sign. -/
theorem exists_reads_iff_hexDigits_or (value : Text) :
    (∃ bytes, value.Reads bytes) ↔ value.HexDigits ∨ value.Signed := by
  rw [exists_reads_iff, HexDigits, Signed, ← and_or_left]
  refine and_congr_right fun hlen => ?_
  rw [Hex.digits_iff_pairs value.utf8 (by omega)]
  constructor
  · intro hread
    by_cases hsign : ∃ p ∈ Hex.pairs value.utf8, p.1 = 43
    · exact .inr ⟨hread, hsign⟩
    · rw [not_exists] at hsign
      refine .inl fun p hp => ⟨?_, (hread p hp).2⟩
      exact (hread p hp).1.resolve_right fun h => hsign p ⟨hp, h⟩
  · rintro (hdigits | hsigned)
    · exact fun p hp => ⟨.inl (hdigits p hp).1, (hdigits p hp).2⟩
    · exact hsigned.1

theorem Signed.not_hexDigits {value : Text} (h : value.Signed) : ¬ value.HexDigits := by
  intro hdigits
  obtain ⟨hlen, -, p, hp, hsign⟩ := h
  have hdigit := ((Hex.digits_iff_pairs value.utf8 (by omega)).mp hdigits.2 p hp).1
  rw [hsign] at hdigit
  exact absurd hdigit (by decide)

end Text

theorem decode_eq_some_iff (value : Text) (bytes : Bytes32) :
    Hex.decode value.utf8 = some bytes.toList ↔ value.Reads bytes := by
  unfold Hex.decode Text.Reads
  split_ifs with hodd
  · refine ⟨fun h => (nomatch h), fun h => ?_⟩
    omega
  · constructor
    · intro h
      have hlen := Hex.decodePairs_length _ _ h
      rw [bytes.toList_length] at hlen
      exact ⟨by omega, h⟩
    · exact fun h => h.2

/-- Decoding and then checking the length. -/
theorem decode_array_iff {ε : Type} (e : ε) (e' : Nat → ε) (value : Text) (bytes : Bytes32) :
    (do
      let decoded ← Res.okOr e (Hex.decode value.utf8)
      if h : decoded.length = 32 then .ok ⟨decoded, h⟩
      else .error (.err (e' decoded.length)) : Res ε Bytes32) = .ok bytes ↔
    value.Reads bytes := by
  rw [← decode_eq_some_iff, Res.bind_eq_ok]
  constructor
  · intro h
    obtain ⟨decoded, hdecoded, h⟩ := h
    rw [Res.okOr_eq_ok] at hdecoded
    split_ifs at h with h32
    obtain rfl := Except.ok.inj h
    exact hdecoded
  · intro h
    refine ⟨bytes.toList, by rw [Res.okOr_eq_ok, h], ?_⟩
    rw [dif_pos bytes.toList_length]
    rfl

theorem parseHash_iff (value : Text) (bytes : Bytes32) :
    parseHash value = .ok bytes ↔ value.Reads bytes :=
  decode_array_iff (SqliteStoreError.invalidHashHex value) SqliteStoreError.invalidHashLength
    value bytes

theorem parseHexArray_iff (value : Text) (name : String) (bytes : Bytes32) :
    parseHexArray 32 value name = .ok bytes ↔ value.Reads bytes :=
  decode_array_iff _ (fun _ => invalidText name value) value bytes

private theorem take_succ_set (l : Bytes) (i : Nat) (a : UInt8) (h : i < l.length) :
    (l.set i a).take (i + 1) = l.take i ++ [a] := by
  rw [List.set_eq_take_append_cons_drop, if_pos h]
  simp [List.take_append, h.le]

/-- Filling the array from `index` on is decoding. -/
theorem fillPairs_eq_ok (value : Bytes) (bytes : Bytes32) (index : Nat)
    (hfit : index + value.length / 2 ≤ 32) (result : Bytes32) :
    fillPairs bytes index value = .ok result ↔ ∃ decoded, Hex.decodePairs value = some decoded ∧
      result.toList = bytes.toList.take index ++ decoded ++
        bytes.toList.drop (index + decoded.length) := by
  induction value using Hex.pairs.induct generalizing bytes index with
  | case1 a b rest ih =>
    simp only [List.length_cons] at hfit
    have hindex : index < 32 := by omega
    rw [fillPairs, Hex.decodePairs_cons]
    cases hbyte : Hex.fromStrRadix [a, b] with
    | none => cases Hex.isUtf8Pair a b <;> simp [Res.okOr]
    | some byte =>
      have hread := (Hex.fromStrRadix_pair_isSome a b).mp ⟨byte, hbyte⟩
      rw [Hex.isUtf8Pair_of_readPair a b hread]
      simp only [Bool.not_true, Bool.false_eq_true, if_false, Res.okOr_some, Res.ok_bind,
        dif_pos hindex]
      rw [ih _ _ (by omega), List.Vector.toList_set]
      have htake := take_succ_set bytes.toList index byte (by rwa [bytes.toList_length])
      have hdrop : ∀ n, (bytes.toList.set index byte).drop (index + 1 + n) =
          bytes.toList.drop (index + (n + 1)) := by
        intro n
        rw [List.drop_set_of_lt (by omega)]
        congr 1
        omega
      simp [htake, hdrop]
  | case2 value hshort =>
    rw [Hex.decodePairs.eq_2 value hshort, fillPairs.eq_2 bytes index value hshort]
    simp [← List.Vector.toList_injective.eq_iff, eq_comm]

theorem parsePublicKeyHex_iff (value : Text) (bytes : Bytes32) :
    parsePublicKeyHex value = .ok bytes ↔ value.Reads bytes := by
  unfold parsePublicKeyHex Text.Reads
  split_ifs with hlen
  · simp [hlen]
  · rw [not_not] at hlen
    rw [fillPairs_eq_ok _ _ _ (by omega)]
    simp only [hlen, true_and, List.take_zero, List.nil_append, Nat.zero_add]
    constructor
    · intro h
      obtain ⟨decoded, hdecoded, hbytes⟩ := h
      have h32 := Hex.decodePairs_length _ _ hdecoded
      have hzero : zeroBytes.toList.length ≤ decoded.length := by
        rw [zeroBytes.toList_length]
        omega
      rw [List.drop_of_length_le hzero, List.append_nil] at hbytes
      rw [hdecoded, hbytes]
    · intro h
      refine ⟨bytes.toList, h, ?_⟩
      rw [bytes.toList_length, List.drop_of_length_le zeroBytes.toList_length.le, List.append_nil]

section Exactly

/-- `bytes` is what `value` stands for to some parser. -/
inductive Denotes (value : Text) (bytes : Bytes32) : Prop where
  | blockHash (h : parseBlockHash value = .ok ⟨bytes⟩)
  | txid (h : parseTxid value = .ok ⟨bytes⟩)
  | publicKey (h : parsePublicKeyHex value = .ok bytes)
  | array (name : String) (h : parseHexArray 32 value name = .ok bytes)

/-- Every parser accepts `value` if it is 64 digits and only then, and all read the same bytes. -/
structure ParsedExactly (value : Text) : Prop where
  blockHash : (∃ hash, parseBlockHash value = .ok hash) ↔ value.HexDigits
  txid : (∃ txid, parseTxid value = .ok txid) ↔ value.HexDigits
  publicKey : (∃ bytes, parsePublicKeyHex value = .ok bytes) ↔ value.HexDigits
  array : ∀ name, (∃ bytes, parseHexArray 32 value name = .ok bytes) ↔ value.HexDigits
  agree : value.HexDigits → ∃ bytes, parseBlockHash value = .ok ⟨bytes⟩ ∧
    parseTxid value = .ok ⟨bytes⟩ ∧ parsePublicKeyHex value = .ok bytes ∧
    ∀ name, parseHexArray 32 value name = .ok bytes

theorem parseBlockHash_iff (value : Text) (hash : BlockHash) :
    parseBlockHash value = .ok hash ↔ value.Reads hash.bytes := by
  rw [← parseHash_iff, parseBlockHash, Res.bind_eq_ok]
  constructor
  · intro h
    obtain ⟨bytes, hparse, h⟩ := h
    obtain rfl := Except.ok.inj h
    exact hparse
  · exact fun h => ⟨hash.bytes, h, rfl⟩

theorem parseTxid_iff (value : Text) (txid : Txid) :
    parseTxid value = .ok txid ↔ value.Reads txid.bytes := by
  rw [← parseHash_iff, parseTxid, Res.bind_eq_ok]
  constructor
  · intro h
    obtain ⟨bytes, hparse, h⟩ := h
    obtain rfl := Except.ok.inj h
    exact hparse
  · exact fun h => ⟨txid.bytes, h, rfl⟩

theorem Denotes.reads {value : Text} {bytes : Bytes32} (h : Denotes value bytes) :
    value.Reads bytes := by
  cases h with
  | blockHash h => exact (parseBlockHash_iff value _).mp h
  | txid h => exact (parseTxid_iff value _).mp h
  | publicKey h => exact (parsePublicKeyHex_iff value bytes).mp h
  | array name h => exact (parseHexArray_iff value name bytes).mp h

theorem Text.Reads.parsed {value : Text} {bytes : Bytes32} (h : value.Reads bytes) :
    parseBlockHash value = .ok ⟨bytes⟩ ∧ parseTxid value = .ok ⟨bytes⟩ ∧
      parsePublicKeyHex value = .ok bytes ∧ ∀ name, parseHexArray 32 value name = .ok bytes :=
  ⟨(parseBlockHash_iff value _).mpr h, (parseTxid_iff value _).mpr h,
    (parsePublicKeyHex_iff value bytes).mpr h,
    fun name => (parseHexArray_iff value name bytes).mpr h⟩

theorem Text.reads_render (bytes : Bytes32) : Text.Reads ⟨Hex.render bytes.toList⟩ bytes := by
  refine ⟨?_, Hex.decodePairs_render _⟩
  rw [Hex.render_length, bytes.toList_length]

theorem parsedExactly_iff (value : Text) : ParsedExactly value ↔ ¬ value.Signed := by
  constructor
  · intro h hsigned
    obtain ⟨bytes, hread⟩ := value.exists_reads_iff_hexDigits_or.mpr (.inr hsigned)
    exact hsigned.not_hexDigits (h.publicKey.mp ⟨bytes, hread.parsed.2.2.1⟩)
  · intro hsigned
    have haccept : (∃ bytes, value.Reads bytes) ↔ value.HexDigits := by
      rw [value.exists_reads_iff_hexDigits_or]
      exact or_iff_left hsigned
    refine ⟨?_, ?_, ?_, fun name => ?_, fun hdigits => ?_⟩
    · rw [← haccept]
      simp only [parseBlockHash_iff]
      exact ⟨fun h => ⟨_, h.choose_spec⟩, fun h => ⟨⟨_⟩, h.choose_spec⟩⟩
    · rw [← haccept]
      simp only [parseTxid_iff]
      exact ⟨fun h => ⟨_, h.choose_spec⟩, fun h => ⟨⟨_⟩, h.choose_spec⟩⟩
    · rw [← haccept]
      simp only [parsePublicKeyHex_iff]
    · rw [← haccept]
      simp only [parseHexArray_iff]
    · obtain ⟨bytes, hread⟩ := haccept.mpr hdigits
      exact ⟨bytes, hread.parsed⟩

/-- A text without a sign is the rendering of what it denotes, up to letter case. -/
theorem Denotes.lower_eq {value : Text} {bytes : Bytes32} (h : Denotes value bytes)
    (hsigned : ¬ value.Signed) : value.utf8.map Hex.lower = Hex.render bytes.toList := by
  have hread := h.reads
  have hdigits := (value.exists_reads_iff_hexDigits_or.mp ⟨bytes, hread⟩).resolve_right hsigned
  obtain ⟨bytes', hread', hlower⟩ := hdigits.reads
  rw [hlower, Text.reads_unique hread' hread]

/-- The four parsers are exact but for a plus sign in front of a digit. What they render is read
back, and texts without a sign that denote the same bytes differ in letter case only. -/
theorem hex_parsed_exactly (value : Text) (bytes : Bytes32) :
    (ParsedExactly value ↔ ¬ value.Signed) ∧
    parseBlockHash (BlockHash.text ⟨bytes⟩) = .ok ⟨bytes⟩ ∧
    parseTxid (Txid.text ⟨bytes⟩) = .ok ⟨bytes⟩ ∧
    parsePublicKeyHex (encodePublicKey bytes) = .ok bytes ∧
    (∀ name, parseHexArray 32 (encodeHex bytes.toList) name = .ok bytes) ∧
    ∀ value' : Text, ¬ value.Signed → ¬ value'.Signed → Denotes value bytes →
      Denotes value' bytes → value.utf8.map Hex.lower = value'.utf8.map Hex.lower := by
  have hback := (Text.reads_render bytes).parsed
  refine ⟨parsedExactly_iff value, parseBlockHash_text _, parseTxid_text _, hback.2.2.1,
    hback.2.2.2, ?_⟩
  intro value' hsigned hsigned' h h'
  rw [h.lower_eq hsigned, h'.lower_eq hsigned']

/-- The text `+f` followed by 62 zeros. -/
def plusKey : Text := ⟨43 :: 102 :: List.replicate 62 48⟩

/-- A sign passes for a zero. -/
theorem plusKey_parsed : ¬ plusKey.HexDigits ∧
    parsePublicKeyHex plusKey = .ok ⟨15 :: List.replicate 31 0, rfl⟩ ∧
    parseBlockHash plusKey = .ok ⟨⟨15 :: List.replicate 31 0, rfl⟩⟩ ∧
    parseTxid plusKey = .ok ⟨⟨15 :: List.replicate 31 0, rfl⟩⟩ ∧
    parseHexArray 32 plusKey "txid" = .ok ⟨15 :: List.replicate 31 0, rfl⟩ ∧
    parsePublicKeyHex ⟨48 :: 102 :: List.replicate 62 48⟩ =
      .ok ⟨15 :: List.replicate 31 0, rfl⟩ := by
  decide +kernel

end Exactly

end Wobble

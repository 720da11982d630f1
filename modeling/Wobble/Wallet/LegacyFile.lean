import Wobble.Framework.Varint
import Wobble.Store.Tables

namespace Wobble

open Rust Bincode Codec

inductive WalletError [Bincode] where
  | encode (e : EncodeError)
  | decode (e : DecodeError)
  | duplicateKeyName (name : Text)
  | missingDefaultKey (name : Text)
  | emptyWallet

structure WalletKeyFile where
  name : Text
  secretKey : Bytes32

structure WalletFileV2 where
  defaultKey : Text
  keys : List WalletKeyFile

structure WalletFileV1 where
  secretKey : Bytes32

/-- The bytes of `default`. -/
def defaultKeyName : Text := ⟨[100, 101, 102, 97, 117, 108, 116]⟩

-- derived code reads and writes the fields of a file in the order they are declared in
section Derived

variable [Bincode]

def decodeText : Decoder DecodeError Text := fun src => do
  let (bytes, src) ← decodeString src
  return (⟨bytes⟩, src)

def WalletKeyFile.decode : Decoder DecodeError WalletKeyFile := fun src => do
  let (name, src) ← decodeText src
  let (secretKey, src) ← decodeArray 32 src
  return (⟨name, secretKey⟩, src)

def WalletFileV2.decode : Decoder DecodeError WalletFileV2 := fun src => do
  let (defaultKey, src) ← decodeText src
  let (keys, src) ← decodeSeq WalletKeyFile.decode src
  return (⟨defaultKey, keys⟩, src)

def WalletFileV1.decode : Decoder DecodeError WalletFileV1 := fun src => do
  let (secretKey, src) ← decodeArray 32 src
  return (⟨secretKey⟩, src)

def WalletFileV1.encode : Encoder EncodeError WalletFileV1 := fun file =>
  encodeArray file.secretKey

end Derived

structure WalletKey (SigningKey : Type) where
  name : Text
  signingKey : SigningKey
  deriving DecidableEq

structure Wallet (SigningKey : Type) where
  defaultKey : Text
  keys : List (WalletKey SigningKey)
  deriving DecidableEq

namespace Wallet

variable {SigningKey : Type}

def fromSigningKey (signingKey : SigningKey) : Wallet SigningKey :=
  ⟨defaultKeyName, [⟨defaultKeyName, signingKey⟩]⟩

/-- The first name that a key before it has already. -/
def firstDuplicate (prior : List Text) : List (WalletKey SigningKey) → Option Text
  | [] => none
  | key :: rest =>
    if key.name ∈ prior then some key.name else firstDuplicate (prior ++ [key.name]) rest

def validate [Bincode] (wallet : Wallet SigningKey) : Res WalletError Unit :=
  if wallet.keys.isEmpty then .error (.err .emptyWallet)
  else match firstDuplicate [] wallet.keys with
    | some name => .error (.err (.duplicateKeyName name))
    | none =>
      if wallet.keys.any (fun key => key.name == wallet.defaultKey) then .ok ()
      else .error (.err (.missingDefaultKey wallet.defaultKey))

end Wallet

section Loading

variable [Bincode] {SigningKey : Type} (signingKeyFromBytes : Bytes32 → SigningKey)

omit [Bincode] in
def WalletFileV2.wallet (file : WalletFileV2) : Wallet SigningKey :=
  ⟨file.defaultKey, file.keys.map fun key => ⟨key.name, signingKeyFromBytes key.secretKey⟩⟩

/-- `load_wallet` on a file that could be read and holds these bytes. -/
def loadWallet (bytes : Bytes) : Res WalletError (Wallet SigningKey) :=
  match WalletFileV2.decode bytes with
  | .ok (file, _) => do
    let wallet := file.wallet signingKeyFromBytes
    wallet.validate
    return wallet
  | .error (.panic m) => .error (.panic m)
  | .error (.err _) => do
    let (legacy, _) ← Res.mapErr .decode (WalletFileV1.decode bytes)
    return .fromSigningKey (signingKeyFromBytes legacy.secretKey)

end Loading

section Legacy

variable [Bincode]

/-- The bytes begin with a text and a count of zero: a keyring without keys. -/
def OpensEmpty (bytes : Bytes) : Prop :=
  ∃ text src rest, decodeString bytes = .ok (text, src) ∧ decodeLen src = .ok (0, rest)

/-- The first length, or after a text and a count that is not zero the next one, is too large for
the memory. -/
def Exhausts (memory : Nat → Bool) (bytes : Bytes) : Prop :=
  (∃ n rest, decodeLen bytes = .ok (n, rest) ∧ memory n = false) ∨
    ∃ text src n src' m rest, decodeString bytes = .ok (text, src) ∧
      decodeLen src = .ok (n + 1, src') ∧ decodeLen src' = .ok (m, rest) ∧ memory m = false

theorem decodeText_eq_ok {src rest : Bytes} {text : Text} :
    decodeText src = .ok (text, rest) ↔ decodeString src = .ok (text.utf8, rest) := by
  rw [decodeText, Res.bind_eq_ok]
  constructor
  · intro h
    obtain ⟨⟨bytes, src'⟩, hread, h⟩ := h
    cases h
    exact hread
  · intro h
    exact ⟨(text.utf8, rest), h, rfl⟩

theorem decodeText_eq_panic {src : Bytes} {m : String} :
    decodeText src = .error (.panic m) ↔ decodeString src = .error (.panic m) := by
  rw [decodeText]
  cases decodeString src with
  | error fault => simp
  | ok read => simp

variable {memory : Nat → Bool} (h : Standard memory)

include h

/-- A text takes at least the byte of its length. -/
theorem decodeText_consumes {src rest : Bytes} {text : Text}
    (htext : decodeText src = .ok (text, rest)) : rest.length < src.length := by
  obtain ⟨hlen, -⟩ := (h.decodeString_eq_ok _ _ _).mp (decodeText_eq_ok.mp htext)
  have hshort := h.decodeLen_consumes _ _ _ hlen
  rw [List.length_append] at hshort
  omega

/-- 31 bytes are too few for a named key. -/
theorem WalletKeyFile.decode_short {src : Bytes} (hsrc : src.length < 32)
    (read : WalletKeyFile × Bytes) : WalletKeyFile.decode src ≠ .ok read := by
  intro hread
  obtain ⟨⟨name, rest⟩, hname, hread⟩ := (Res.bind_eq_ok _ _ _).mp hread
  obtain ⟨⟨secretKey, rest'⟩, hkey, -⟩ := (Res.bind_eq_ok _ _ _).mp hread
  have hshort := decodeText_consumes h hname
  have harray : rest = secretKey.toList ++ rest' := (h.decodeArray_eq_ok _ _ _ _).mp hkey
  have hlen := secretKey.toList_length
  rw [harray, List.length_append] at hshort
  omega

theorem WalletKeyFile.decode_eq_panic {src : Bytes} {m : String}
    (hpanic : WalletKeyFile.decode src = .error (.panic m)) :
    ∃ n rest, decodeLen src = .ok (n, rest) ∧ memory n = false := by
  rcases (Res.bind_eq_error _ _ _).mp hpanic with hname | ⟨⟨name, rest⟩, -, hrest⟩
  · exact (h.decodeString_eq_panic src).mp ⟨m, decodeText_eq_panic.mp hname⟩
  · rcases (Res.bind_eq_error _ _ _).mp hrest with hkey | ⟨read, -, hdone⟩
    · exact absurd hkey (h.decodeArray_returns 32 rest m)
    · cases hdone

/-- A length that is too large ends the reading of a named key. -/
theorem WalletKeyFile.decode_exhausts {src rest : Bytes} {n : Nat}
    (hlen : decodeLen src = .ok (n, rest)) (hmemory : memory n = false) :
    ∃ m, WalletKeyFile.decode src = .error (.panic m) := by
  obtain ⟨m, hpanic⟩ := (h.decodeString_eq_panic src).mpr ⟨n, rest, hlen, hmemory⟩
  refine ⟨m, ?_⟩
  rw [decode, decodeText_eq_panic.mpr hpanic]
  rfl

/-- The first of some keys cannot be read from less than 32 bytes. -/
theorem decodeKeys_short {src : Bytes} (hsrc : src.length < 32) (n : Nat) :
    (∃ e, decodeMany WalletKeyFile.decode (n + 1) src = .error (.err e) ∧
      ∀ m rest, decodeLen src = .ok (m, rest) → memory m = true) ∨
    ∃ text, decodeMany WalletKeyFile.decode (n + 1) src = .error (.panic text) ∧
      ∃ m rest, decodeLen src = .ok (m, rest) ∧ memory m = false := by
  rw [decodeMany]
  rcases hkey : WalletKeyFile.decode src with (e | text) | read
  · refine .inl ⟨e, rfl, fun m rest hlen => ?_⟩
    cases hmemory : memory m with
    | true => rfl
    | false =>
      obtain ⟨text, hpanic⟩ := WalletKeyFile.decode_exhausts h hlen hmemory
      cases hkey.symm.trans hpanic
  · exact .inr ⟨text, rfl, WalletKeyFile.decode_eq_panic h hkey⟩
  · exact absurd hkey (WalletKeyFile.decode_short h hsrc read)

/-- A keyring after its first text. -/
theorem WalletFileV2.decode_of_text {bytes text src : Bytes}
    (htext : decodeString bytes = .ok (text, src)) :
    WalletFileV2.decode bytes = decodeLen src >>= fun count =>
      decodeMany WalletKeyFile.decode count.1 count.2 >>= fun read =>
        .ok (⟨⟨text⟩, read.1⟩, read.2) := by
  have hname : decodeText bytes = .ok (⟨text⟩, src) := decodeText_eq_ok.mpr htext
  rw [decode, hname, Res.ok_bind]
  dsimp only
  rw [h.decodeSeq_eq]
  cases decodeLen src with
  | error fault => rfl
  | ok count => rfl

omit h in
/-- What 32 bytes are to the decoder of keyrings. -/
inductive ReadsAs (memory : Nat → Bool) (bytes : Bytes) :
    Res DecodeError (WalletFileV2 × Bytes) → Prop
  | empty (name : Text) (rest : Bytes) (hopens : OpensEmpty bytes) :
      ReadsAs memory bytes (.ok (⟨name, []⟩, rest))
  | ends (text : String) (hexhausts : Exhausts memory bytes) :
      ReadsAs memory bytes (.error (.panic text))
  | fails (e : DecodeError) (hopens : ¬ OpensEmpty bytes) (hexhausts : ¬ Exhausts memory bytes) :
      ReadsAs memory bytes (.error (.err e))

/-- Past its first text the memory can only run out in the first key. -/
theorem not_exhausts_of_text {bytes text src : Bytes}
    (htext : decodeString bytes = .ok (text, src))
    (hkey : ∀ n src' m rest, decodeLen src = .ok (n + 1, src') →
      decodeLen src' = .ok (m, rest) → memory m = true) : ¬ Exhausts memory bytes := by
  intro hexhausts
  obtain ⟨n, rest, hlen, hmemory⟩ | ⟨text', src₁, n, src₂, m, rest, htext', hcount, hlen, hmemory⟩ :=
    hexhausts
  · obtain ⟨m, hpanic⟩ := (h.decodeString_eq_panic bytes).mpr ⟨n, rest, hlen, hmemory⟩
    cases hpanic.symm.trans htext
  · cases htext.symm.trans htext'
    exact absurd (hkey n src₂ m rest hcount hlen) (by simp [hmemory])

theorem WalletFileV2.decode_spec {bytes : Bytes} (hbytes : bytes.length = 32) :
    ReadsAs memory bytes (WalletFileV2.decode bytes) := by
  rcases htext : decodeString bytes with (e | m) | ⟨text, src⟩
  · have hdecode : WalletFileV2.decode bytes = .error (.err e) := by
      rw [decode, decodeText, htext]
      rfl
    rw [hdecode]
    refine .fails e (fun hopens => ?_) fun hexhausts => ?_
    · obtain ⟨text, src, rest, htext', -⟩ := hopens
      cases htext.symm.trans htext'
    · obtain ⟨n, rest, hlen, hmemory⟩ | ⟨text', src₁, n, src₂, m, rest, htext', -⟩ := hexhausts
      · obtain ⟨m, hpanic⟩ := (h.decodeString_eq_panic bytes).mpr ⟨n, rest, hlen, hmemory⟩
        cases htext.symm.trans hpanic
      · cases htext.symm.trans htext'
  · have hdecode : WalletFileV2.decode bytes = .error (.panic m) := by
      rw [decode, decodeText, htext]
      rfl
    rw [hdecode]
    exact .ends m (.inl ((h.decodeString_eq_panic bytes).mp ⟨m, htext⟩))
  rw [WalletFileV2.decode_of_text h htext]
  rcases hcount : decodeLen src with (e | m) | ⟨n, src'⟩
  · refine .fails e (fun hopens => ?_) (not_exhausts_of_text h htext fun n src' m rest hlen => ?_)
    · obtain ⟨text', src', rest, htext', hzero⟩ := hopens
      cases htext.symm.trans htext'
      cases hcount.symm.trans hzero
    · cases hcount.symm.trans hlen
  · exact absurd hcount (h.decodeLen_returns src m)
  rw [Res.ok_bind]
  cases n with
  | zero => exact .empty ⟨text⟩ src' ⟨text, src, src', htext, hcount⟩
  | succ n =>
    have hname : decodeText bytes = .ok (⟨text⟩, src) := decodeText_eq_ok.mpr htext
    have hfirst := decodeText_consumes h hname
    have hsecond := h.decodeLen_consumes _ _ _ hcount
    obtain ⟨e, herr, hroom⟩ | ⟨m, hpanic, k, rest, hlen, hmemory⟩ :=
      decodeKeys_short h (by omega : src'.length < 32) n
    · dsimp only
      rw [herr]
      refine .fails e (fun hopens => ?_) (not_exhausts_of_text h htext fun n' src₂ m rest hlen => ?_)
      · obtain ⟨text', src₂, rest, htext', hzero⟩ := hopens
        cases htext.symm.trans htext'
        cases hcount.symm.trans hzero
      · cases hcount.symm.trans hlen
        exact hroom m rest
    · dsimp only
      rw [hpanic]
      exact .ends m (.inr ⟨text, src, n, src', k, rest, htext, hcount, hlen, hmemory⟩)

theorem WalletFileV1.decode_key (key : Bytes32) :
    WalletFileV1.decode key.toList = .ok (⟨key⟩, []) := by
  have harray : decodeArray 32 key.toList = .ok (key, []) :=
    (h.decodeArray_eq_ok 32 _ key []).mpr (List.append_nil _).symm
  rw [decode, harray]
  rfl

end Legacy

/-- A legacy file loads as its key, except where its bytes read as a keyring without keys or as a
text too long for the memory. -/
theorem legacy_wallet_loads_iff [Bincode] (memory : Nat → Bool) (h : Standard memory)
    {SigningKey : Type} (signingKeyFromBytes : Bytes32 → SigningKey) (key : Bytes32) :
    WalletFileV1.encode ⟨key⟩ = .ok key.toList ∧
    (loadWallet signingKeyFromBytes key.toList =
        .ok ⟨defaultKeyName, [⟨defaultKeyName, signingKeyFromBytes key⟩]⟩ ↔
      ¬ OpensEmpty key.toList ∧ ¬ Exhausts memory key.toList) := by
  refine ⟨h.encodeArray_eq key, ?_⟩
  have hspec := WalletFileV2.decode_spec h key.toList_length
  rw [loadWallet]
  generalize WalletFileV2.decode key.toList = decoded at hspec
  cases hspec with
  | empty name rest hopens =>
    refine iff_of_false (fun hload => ?_) fun hnot => hnot.1 hopens
    cases hload
  | ends m hexhausts =>
    refine iff_of_false (fun hload => ?_) fun hnot => hnot.2 hexhausts
    cases hload
  | fails e hopens hexhausts =>
    refine iff_of_true ?_ ⟨hopens, hexhausts⟩
    dsimp only
    rw [WalletFileV1.decode_key h]
    rfl

/-- The key whose bytes are all zero is locked out. -/
theorem zeroKey_locked_out :
    (∃ _ : Bincode, Standard fun _ => true) ∧
    ∀ [Bincode] (memory : Nat → Bool), Standard memory → memory 0 = true →
      ∀ {SigningKey : Type} (signingKeyFromBytes : Bytes32 → SigningKey),
        WalletFileV1.encode ⟨zeroBytes⟩ = .ok zeroBytes.toList ∧
        loadWallet signingKeyFromBytes zeroBytes.toList = .error (.err .emptyWallet) := by
  refine ⟨⟨Varint.bincode fun _ => true, Varint.bincode_standard _⟩, ?_⟩
  intro _ memory h hmemory SigningKey signingKeyFromBytes
  refine ⟨h.encodeArray_eq zeroBytes, ?_⟩
  have hzero (n : Nat) : decodeLen (List.replicate (n + 1) 0) = .ok (0, List.replicate n 0) :=
    h.decodeLen_byte 0 _ (by decide)
  have htext : decodeString zeroBytes.toList = .ok ([], List.replicate 31 0) :=
    (h.decodeString_eq_ok _ _ _).mpr ⟨hzero 31, hmemory, by decide +kernel⟩
  rw [loadWallet, WalletFileV2.decode_of_text h htext, hzero 30, Res.ok_bind]
  rfl

section SampleKey

/-- A process that can set aside a mebibyte. -/
def smallMemory (n : Nat) : Bool := decide (n ≤ 2^20)

@[reducible] def smallBincode : Bincode := Varint.bincode smallMemory

attribute [local instance] smallBincode

theorem smallBincode_standard : Standard smallMemory := Varint.bincode_standard smallMemory

/-- The key whose bytes are all seven. -/
def sevens : Bytes32 := ⟨List.replicate 32 7, rfl⟩

/-- It reads as a text and a count of seven, and then the first of the seven keys is cut off. -/
theorem sevens_loads :
    loadWallet (id : Bytes32 → Bytes32) sevens.toList = .ok (.fromSigningKey sevens) := by
  have hlen (n : Nat) : decodeLen (List.replicate (n + 1) 7) = .ok (7, List.replicate n 7) := rfl
  have htext : decodeString sevens.toList = .ok (List.replicate 7 7, List.replicate 24 7) :=
    (smallBincode_standard.decodeString_eq_ok _ _ _).mpr ⟨hlen 31, rfl, by decide +kernel⟩
  refine (legacy_wallet_loads_iff smallMemory smallBincode_standard id sevens).2.mpr ⟨?_, ?_⟩
  · intro hopens
    obtain ⟨text, src, rest, htext', hcount⟩ := hopens
    cases htext.symm.trans htext'
    cases (hlen 23).symm.trans hcount
  · refine not_exhausts_of_text smallBincode_standard htext fun n src m rest hcount hkey => ?_
    cases (hlen 23).symm.trans hcount
    cases (hlen 22).symm.trans hkey
    rfl

end SampleKey

end Wobble

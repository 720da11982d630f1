import Wobble.Wallet.LegacyFile

namespace Wobble

open Rust Bincode Codec

section Files

variable [Bincode]

def encodeText : Encoder EncodeError Text := fun text => encodeString text.utf8

def WalletKeyFile.encode : Encoder EncodeError WalletKeyFile := fun key => do
  let name ← encodeText key.name
  let secretKey ← encodeArray key.secretKey
  return name ++ secretKey

def WalletFileV2.encode : Encoder EncodeError WalletFileV2 := fun file => do
  let defaultKey ← encodeText file.defaultKey
  let keys ← encodeSeq WalletKeyFile.encode file.keys
  return defaultKey ++ keys

omit [Bincode] in
/-- A file that can be written and read. -/
structure WalletFileV2.Fits (memory : Nat → Bool) (file : WalletFileV2) : Prop where
  defaultKey : Storable memory file.defaultKey.utf8
  length_lt : file.keys.length < 2^64
  names : ∀ key ∈ file.keys, Storable memory key.name.utf8

variable {memory : Nat → Bool} (h : Standard memory)

include h

theorem decodeText_inverts :
    Inverts (fun text => Storable memory text.utf8) encodeText (decodeText : Decoder DecodeError _) := by
  intro text htext
  obtain ⟨bytes, hbytes, hreads⟩ := h.decodeString_inverts text.utf8 htext
  exact ⟨bytes, hbytes, fun rest => decodeText_eq_ok.mpr (hreads rest)⟩

theorem decodeText_yields :
    Yields (decodeText : Decoder DecodeError _) fun text => Storable memory text.utf8 := by
  intro src text rest htext
  exact h.decodeString_yields _ _ _ (decodeText_eq_ok.mp htext)

theorem WalletKeyFile.decode_inverts :
    Inverts (fun key => Storable memory key.name.utf8) encode (decode : Decoder DecodeError _) := by
  intro key hkey
  obtain ⟨name, hname, hreadsName⟩ := decodeText_inverts h key.name hkey
  obtain ⟨secretKey, hsecret, hreadsSecret⟩ := h.decodeArray_inverts 32 key.secretKey trivial
  refine ⟨name ++ secretKey, ?_, fun rest => ?_⟩
  · rw [encode, hname, Res.ok_bind, hsecret]
    rfl
  · rw [decode, List.append_assoc, hreadsName, Res.ok_bind]
    dsimp only
    rw [hreadsSecret]
    rfl

theorem WalletKeyFile.decode_yields :
    Yields (decode : Decoder DecodeError _) fun key => Storable memory key.name.utf8 := by
  intro src key rest hkey
  obtain ⟨⟨name, src₁⟩, hname, hkey⟩ := (Res.bind_eq_ok _ _ _).mp hkey
  obtain ⟨⟨secretKey, src₂⟩, -, hkey⟩ := (Res.bind_eq_ok _ _ _).mp hkey
  cases hkey
  exact decodeText_yields h _ _ _ hname

theorem WalletFileV2.decode_inverts :
    Inverts (Fits memory) encode (decode : Decoder DecodeError _) := by
  intro file hfile
  obtain ⟨name, hname, hreadsName⟩ := decodeText_inverts h file.defaultKey hfile.defaultKey
  obtain ⟨keys, hkeys, hreadsKeys⟩ := h.decodeSeq_inverts (WalletKeyFile.decode_inverts h) file.keys
    ⟨hfile.length_lt, hfile.names⟩
  refine ⟨name ++ keys, ?_, fun rest => ?_⟩
  · rw [encode, hname, Res.ok_bind, hkeys]
    rfl
  · rw [decode, List.append_assoc, hreadsName, Res.ok_bind]
    dsimp only
    rw [hreadsKeys]
    rfl

theorem WalletFileV2.decode_yields :
    Yields (decode : Decoder DecodeError _) (Fits memory) := by
  intro src file rest hfile
  obtain ⟨⟨defaultKey, src₁⟩, hdefault, hfile⟩ := (Res.bind_eq_ok _ _ _).mp hfile
  obtain ⟨⟨keys, src₂⟩, hkeys, hfile⟩ := (Res.bind_eq_ok _ _ _).mp hfile
  cases hfile
  obtain ⟨hlen, hnames⟩ := h.decodeSeq_yields (WalletKeyFile.decode_yields h) _ _ _ hkeys
  exact ⟨decodeText_yields h _ _ _ hdefault, hlen, hnames⟩

end Files

namespace Wallet

variable {SigningKey : Type}

/-- `UnknownKeyName` of the source, the one error of `key`. -/
structure UnknownKeyName where
  name : Text
  deriving DecidableEq

def key (wallet : Wallet SigningKey) (name : Text) : Res UnknownKeyName (WalletKey SigningKey) :=
  Res.okOr ⟨name⟩ (wallet.keys.find? fun key => key.name == name)

def defaultWalletKey {ε : Type} (wallet : Wallet SigningKey) : Res ε (WalletKey SigningKey) :=
  Res.expect "wallet invariant: default key exists"
    (wallet.keys.find? fun key => key.name == wallet.defaultKey)

/-- `signingKey` is the one that was drawn at random. -/
def generateKey [Bincode] (wallet : Wallet SigningKey) (name : Text) (signingKey : SigningKey) :
    Res WalletError (Wallet SigningKey) :=
  if wallet.keys.any fun key => key.name == name then .error (.err (.duplicateKeyName name))
  else .ok { wallet with keys := wallet.keys ++ [⟨name, signingKey⟩] }

def names (wallet : Wallet SigningKey) : List Text := wallet.keys.map WalletKey.name

/-- What `validate` asks for. -/
structure Valid (wallet : Wallet SigningKey) : Prop where
  nodup : wallet.names.Nodup
  default_mem : wallet.defaultKey ∈ wallet.names

theorem firstDuplicate_eq_none (prior : List Text) (keys : List (WalletKey SigningKey)) :
    firstDuplicate prior keys = none ↔
      (keys.map WalletKey.name).Nodup ∧ ∀ key ∈ keys, key.name ∉ prior := by
  induction keys generalizing prior with
  | nil => simp [firstDuplicate]
  | cons key rest ih =>
    rw [firstDuplicate]
    split_ifs with hmem
    · simp [hmem]
    · rw [ih]
      simp only [List.map_cons, List.nodup_cons, List.mem_map, List.forall_mem_cons,
        List.mem_append, List.mem_singleton, not_or, not_exists, not_and]
      grind

theorem any_name (wallet : Wallet SigningKey) (name : Text) :
    (wallet.keys.any fun key => key.name == name) = true ↔ name ∈ wallet.names := by
  simp [names]

theorem validate_eq_ok [Bincode] (wallet : Wallet SigningKey) :
    wallet.validate = .ok () ↔ wallet.Valid := by
  have hdup := firstDuplicate_eq_none [] wallet.keys
  rw [validate]
  constructor
  · intro h
    by_cases hempty : wallet.keys.isEmpty = true
    · rw [if_pos hempty] at h
      cases h
    rw [if_neg hempty] at h
    cases hfirst : firstDuplicate [] wallet.keys with
    | some name =>
      rw [hfirst] at h
      cases h
    | none =>
      rw [hfirst] at h
      dsimp only at h
      by_cases hany : (wallet.keys.any fun key => key.name == wallet.defaultKey) = true
      · exact ⟨(hdup.mp hfirst).1, (any_name wallet _).mp hany⟩
      · rw [if_neg hany] at h
        cases h
  · intro h
    have hany := (any_name wallet _).mpr h.default_mem
    have hempty : ¬ wallet.keys.isEmpty = true := by
      intro hempty
      rw [List.isEmpty_iff.mp hempty] at hany
      cases hany
    have hfirst : firstDuplicate [] wallet.keys = none := hdup.mpr ⟨h.nodup, by simp⟩
    rw [if_neg hempty, hfirst]
    exact if_pos hany

/-- A name stands for one key. -/
theorem find_name (keys : List (WalletKey SigningKey)) (hnodup : (keys.map WalletKey.name).Nodup)
    (key : WalletKey SigningKey) (hmem : key ∈ keys) :
    keys.find? (fun other => other.name == key.name) = some key := by
  induction keys with
  | nil => cases hmem
  | cons first rest ih =>
    rw [List.map_cons, List.nodup_cons] at hnodup
    obtain rfl | hrest := List.mem_cons.mp hmem
    · simp
    · have hne : first.name ≠ key.name := by
        intro heq
        apply hnodup.1
        rw [heq]
        exact List.mem_map_of_mem hrest
      rw [List.find?_cons_of_neg (by simpa using hne)]
      exact ih hnodup.2 hrest

theorem generateKey_eq_ok [Bincode] (wallet wallet' : Wallet SigningKey) (name : Text)
    (signingKey : SigningKey) :
    wallet.generateKey name signingKey = .ok wallet' ↔
      name ∉ wallet.names ∧ wallet' = { wallet with keys := wallet.keys ++ [⟨name, signingKey⟩] } := by
  rw [generateKey, ← any_name]
  split_ifs with hany
  · simp [hany]
  · simp [hany, eq_comm]

theorem Valid.generateKey {wallet : Wallet SigningKey} (h : wallet.Valid) (name : Text)
    (signingKey : SigningKey) (hnew : name ∉ wallet.names) :
    Valid { wallet with keys := wallet.keys ++ [⟨name, signingKey⟩] } := by
  have hnames : names { wallet with keys := wallet.keys ++ [⟨name, signingKey⟩] } =
      wallet.names ++ [name] := by
    simp [names]
  constructor
  · rw [hnames, ← List.concat_eq_append]
    exact h.nodup.concat hnew
  · rw [hnames]
    exact List.mem_append_left _ h.default_mem

/-- The wallet as the key that each name stands for. -/
def lookup (wallet : Wallet SigningKey) (name : Text) : Option SigningKey :=
  (wallet.keys.find? fun key => key.name == name).map WalletKey.signingKey

theorem lookup_isSome (wallet : Wallet SigningKey) (name : Text) :
    (wallet.lookup name).isSome = true ↔ name ∈ wallet.names := by
  rw [lookup, Option.isSome_map, List.find?_isSome]
  simp [names]

theorem lookup_append (wallet : Wallet SigningKey) (name other : Text) (signingKey : SigningKey) :
    lookup { wallet with keys := wallet.keys ++ [⟨name, signingKey⟩] } other =
      (wallet.lookup other).or (if name = other then some signingKey else none) := by
  rw [lookup, lookup, List.find?_append]
  cases wallet.keys.find? fun key => key.name == other with
  | some key => rfl
  | none =>
    by_cases hname : name = other
    · simp [hname]
    · simp [hname]

end Wallet

section Commands

variable {SigningKey : Type} (signingKeyFromBytes : Bytes32 → SigningKey)
  (secretKeyBytes : SigningKey → Bytes32)

def Wallet.file (wallet : Wallet SigningKey) : WalletFileV2 :=
  ⟨wallet.defaultKey, wallet.keys.map fun key => ⟨key.name, secretKeyBytes key.signingKey⟩⟩

/-- A wallet that can be written and read. -/
structure Wallet.Fits (memory : Nat → Bool) (wallet : Wallet SigningKey) : Prop where
  length_lt : wallet.keys.length < 2^64
  names : ∀ name ∈ wallet.names, Storable memory name.utf8

/-- A wallet whose keys have been added to. -/
structure Wallet.Extends (wallet wallet' : Wallet SigningKey)
    (commands : List (Text × SigningKey)) : Prop where
  default : wallet'.defaultKey = wallet.defaultKey
  keys : wallet.keys <+: wallet'.keys
  length_le : wallet'.keys.length ≤ wallet.keys.length + commands.length
  lookup : ∀ name, wallet'.lookup name = (wallet.lookup name).or
    ((commands.find? fun command => command.1 == name).map Prod.snd)

theorem Wallet.Extends.refl (wallet : Wallet SigningKey) : wallet.Extends wallet [] :=
  ⟨rfl, List.prefix_rfl, le_rfl, fun name => by simp⟩

variable [Bincode]

/-- What `save_wallet` writes, on a disk that takes it. -/
def saveWallet (wallet : Wallet SigningKey) : Res WalletError Bytes := do
  wallet.validate
  Res.mapErr .encode (wallet.file secretKeyBytes).encode

/-- The wallet file after `run_wallet_new_key`, and how the command ends. -/
def runWalletNewKey (bytes : Bytes) (name : Text) (signingKey : SigningKey) :
    Bytes × Res WalletError Unit :=
  let saved : Res WalletError Bytes := do
    let wallet ← loadWallet signingKeyFromBytes bytes
    let wallet ← wallet.generateKey name signingKey
    saveWallet secretKeyBytes wallet
  match saved with
  | .ok bytes' => (bytes', .ok ())
  | .error e => (bytes, .error e)

/-- The file after some commands, whether they succeed or not. -/
def afterNewKeys (bytes : Bytes) (commands : List (Text × SigningKey)) : Bytes :=
  commands.foldl (fun bytes command =>
    (runWalletNewKey signingKeyFromBytes secretKeyBytes bytes command.1 command.2).1) bytes

variable {signingKeyFromBytes secretKeyBytes}

omit [Bincode] in
theorem Wallet.Fits.file {memory : Nat → Bool} {wallet : Wallet SigningKey}
    (hf : wallet.Fits memory) (hv : wallet.Valid) : (wallet.file secretKeyBytes).Fits memory where
  defaultKey := hf.names _ hv.default_mem
  length_lt := by
    rw [Wallet.file, List.length_map]
    exact hf.length_lt
  names key hkey := by
    obtain ⟨source, hsource, rfl⟩ := List.mem_map.mp hkey
    exact hf.names _ (List.mem_map_of_mem hsource)

omit [Bincode] in
theorem file_wallet (hkeys : Function.LeftInverse signingKeyFromBytes secretKeyBytes)
    (wallet : Wallet SigningKey) :
    (wallet.file secretKeyBytes).wallet signingKeyFromBytes = wallet := by
  have hmap : (wallet.keys.map fun key => (⟨key.name, secretKeyBytes key.signingKey⟩ :
      WalletKeyFile)).map (fun key => (⟨key.name, signingKeyFromBytes key.secretKey⟩ :
      WalletKey SigningKey)) = wallet.keys := by
    rw [List.map_map]
    refine (List.map_congr_left fun key _ => ?_).trans (List.map_id _)
    simp [hkeys key.signingKey]
  rw [Wallet.file, WalletFileV2.wallet, hmap]

/-- Only a valid wallet is saved. -/
theorem saveWallet_valid {wallet : Wallet SigningKey} {bytes : Bytes}
    (hsave : saveWallet secretKeyBytes wallet = .ok bytes) : wallet.Valid := by
  obtain ⟨_, hvalid, -⟩ := (Res.bind_eq_ok _ _ _).mp hsave
  exact wallet.validate_eq_ok.mp hvalid

variable {memory : Nat → Bool} (h : Standard memory)
  (hkeys : Function.LeftInverse signingKeyFromBytes secretKeyBytes)

section Saving

include h hkeys

/-- What is saved is loaded, with anything after it. -/
theorem saveWallet_loads (wallet : Wallet SigningKey) (hv : wallet.Valid)
    (hf : wallet.Fits memory) :
    ∃ bytes, saveWallet secretKeyBytes wallet = .ok bytes ∧
      ∀ rest, loadWallet signingKeyFromBytes (bytes ++ rest) = .ok wallet := by
  obtain ⟨bytes, hbytes, hreads⟩ :=
    WalletFileV2.decode_inverts h (wallet.file secretKeyBytes) (hf.file hv)
  have hvalid : wallet.validate = .ok () := wallet.validate_eq_ok.mpr hv
  refine ⟨bytes, ?_, fun rest => ?_⟩
  · rw [saveWallet, hvalid, Res.ok_bind, hbytes]
    rfl
  · rw [loadWallet, hreads]
    dsimp only
    rw [file_wallet hkeys, hvalid]
    rfl

end Saving

section Loaded

variable (hdefault : memory defaultKeyName.utf8.length = true)

include h hdefault

/-- What is loaded, from a file of either kind, can be saved. -/
theorem loadWallet_good (bytes : Bytes) (wallet : Wallet SigningKey)
    (hload : loadWallet signingKeyFromBytes bytes = .ok wallet) :
    wallet.Valid ∧ wallet.Fits memory := by
  rw [loadWallet] at hload
  rcases hdecode : WalletFileV2.decode bytes with (e | m) | ⟨file, rest⟩
  · rw [hdecode] at hload
    dsimp only at hload
    obtain ⟨legacy, -, hload⟩ := (Res.bind_eq_ok _ _ _).mp hload
    cases hload
    refine ⟨⟨by simp [Wallet.names, Wallet.fromSigningKey], by simp [Wallet.names,
      Wallet.fromSigningKey]⟩, by simp [Wallet.fromSigningKey], fun name hname => ?_⟩
    have hname : name = defaultKeyName := by
      simpa [Wallet.names, Wallet.fromSigningKey] using hname
    subst hname
    exact ⟨by decide +kernel, by decide, hdefault⟩
  · rw [hdecode] at hload
    cases hload
  · rw [hdecode] at hload
    dsimp only at hload
    obtain ⟨_, hvalid, hload⟩ := (Res.bind_eq_ok _ _ _).mp hload
    cases hload
    have hfits := WalletFileV2.decode_yields h _ _ _ hdecode
    refine ⟨(Wallet.validate_eq_ok _).mp hvalid, ?_, fun name hname => ?_⟩
    · rw [WalletFileV2.wallet, List.length_map]
      exact hfits.length_lt
    · rw [Wallet.names, WalletFileV2.wallet, List.map_map, List.mem_map] at hname
      obtain ⟨key, hkey, rfl⟩ := hname
      exact hfits.names key hkey

include hkeys

/-- One command on a file that loads: a name that is taken is refused and the file left as it is,
any other is added at the end. -/
theorem runWalletNewKey_spec {bytes : Bytes} {wallet : Wallet SigningKey}
    (hload : loadWallet signingKeyFromBytes bytes = .ok wallet) (name : Text)
    (hname : Storable memory name.utf8) (hroom : wallet.keys.length + 1 < 2^64)
    (signingKey : SigningKey) :
    (name ∈ wallet.names ∧
      runWalletNewKey signingKeyFromBytes secretKeyBytes bytes name signingKey =
        (bytes, .error (.err (.duplicateKeyName name)))) ∨
    (name ∉ wallet.names ∧ ∃ bytes',
      runWalletNewKey signingKeyFromBytes secretKeyBytes bytes name signingKey =
        (bytes', .ok ()) ∧
      loadWallet signingKeyFromBytes bytes' =
        .ok { wallet with keys := wallet.keys ++ [⟨name, signingKey⟩] }) := by
  obtain ⟨hv, hf⟩ := loadWallet_good h hdefault bytes wallet hload
  rw [runWalletNewKey, hload, Res.ok_bind]
  by_cases hmem : name ∈ wallet.names
  · left
    rw [Wallet.generateKey, if_pos ((wallet.any_name name).mpr hmem)]
    exact ⟨hmem, rfl⟩
  · right
    have hv' := hv.generateKey name signingKey hmem
    have hf' : Wallet.Fits memory { wallet with keys := wallet.keys ++ [⟨name, signingKey⟩] } := by
      constructor
      · simpa using hroom
      · intro other hother
        have hcases : other ∈ wallet.names ∨ other = name := by
          simpa [Wallet.names] using hother
        obtain hold | rfl := hcases
        · exact hf.names other hold
        · exact hname
    obtain ⟨bytes', hsave, hreads⟩ := saveWallet_loads h hkeys _ hv' hf'
    have hreload := hreads []
    rw [List.append_nil] at hreload
    rw [(wallet.generateKey_eq_ok _ name signingKey).mpr ⟨hmem, rfl⟩, Res.ok_bind, hsave]
    exact ⟨hmem, bytes', rfl, hreload⟩

theorem afterNewKeys_extends {bytes : Bytes} {wallet : Wallet SigningKey}
    (hload : loadWallet signingKeyFromBytes bytes = .ok wallet)
    (commands : List (Text × SigningKey))
    (hnames : ∀ command ∈ commands, Storable memory command.1.utf8)
    (hroom : wallet.keys.length + commands.length < 2^64) :
    ∃ wallet', loadWallet signingKeyFromBytes
        (afterNewKeys signingKeyFromBytes secretKeyBytes bytes commands) = .ok wallet' ∧
      wallet.Extends wallet' commands := by
  -- from the back: the last command meets the wallet the others have left
  induction commands using List.reverseRecOn with
  | nil => exact ⟨wallet, hload, .refl wallet⟩
  | append_singleton commands command ih =>
    rw [List.length_append, List.length_singleton] at hroom
    obtain ⟨wallet₁, hload₁, hext⟩ := ih (fun c hc => hnames c (List.mem_append_left _ hc))
      (by omega)
    have hlast := hnames command (List.mem_append_right _ (List.mem_singleton_self command))
    have hlen := hext.length_le
    have hstep := runWalletNewKey_spec h hkeys hdefault hload₁ command.1 hlast (by omega) command.2
    have hfold : afterNewKeys signingKeyFromBytes secretKeyBytes bytes
        (commands ++ [command]) = (runWalletNewKey signingKeyFromBytes secretKeyBytes
          (afterNewKeys signingKeyFromBytes secretKeyBytes bytes commands)
          command.1 command.2).1 := by
      simp [afterNewKeys]
    -- a name that the last command gives counts only if nothing else has it
    have hsplit (name : Text) : (wallet.lookup name).or
        (((commands ++ [command]).find? fun c => c.1 == name).map Prod.snd) =
          (wallet₁.lookup name).or (if command.1 = name then some command.2 else none) := by
      rw [hext.lookup name, List.find?_append, Option.map_or, Option.or_assoc]
      by_cases hname : command.1 = name
      · simp [hname]
      · simp [hname]
    rw [hfold]
    obtain ⟨htaken, hrun⟩ | ⟨hnew, bytes', hrun, hload₂⟩ := hstep
    · rw [hrun]
      refine ⟨wallet₁, hload₁, hext.default, hext.keys, ?_, fun name => ?_⟩
      · rw [List.length_append]
        omega
      · rw [hsplit]
        by_cases hname : command.1 = name
        · obtain ⟨key, hkey⟩ := Option.isSome_iff_exists.mp ((wallet₁.lookup_isSome _).mpr htaken)
          rw [← hname, hkey, Option.some_or]
        · rw [if_neg hname, Option.or_none]
    · rw [hrun]
      refine ⟨_, hload₂, hext.default, ?_, ?_, fun name => ?_⟩
      · exact hext.keys.trans (List.prefix_append _ _)
      · simp only [List.length_append, List.length_singleton]
        omega
      · rw [Wallet.lookup_append, hsplit]

end Loaded

end Commands

section Wallets

variable [Bincode] {SigningKey : Type}

/-- What is saved is loaded, and what is loaded can be saved: of the wallets that can be written at
all, exactly the valid ones are; they are read back as they are, whatever follows in the file; and a
wallet that was loaded from any file, also from one of the older kind, is one of them. -/
theorem wallet_file_roundTrip (memory : Nat → Bool) (h : Standard memory)
    (signingKeyFromBytes : Bytes32 → SigningKey) (secretKeyBytes : SigningKey → Bytes32)
    (hkeys : Function.LeftInverse signingKeyFromBytes secretKeyBytes)
    (hdefault : memory defaultKeyName.utf8.length = true) :
    (∀ wallet : Wallet SigningKey, wallet.Fits memory →
      ((∃ bytes, saveWallet secretKeyBytes wallet = .ok bytes) ↔ wallet.Valid) ∧
      ∀ bytes rest, saveWallet secretKeyBytes wallet = .ok bytes →
        loadWallet signingKeyFromBytes (bytes ++ rest) = .ok wallet) ∧
    ∀ bytes wallet, loadWallet signingKeyFromBytes bytes = .ok wallet →
      ∃ bytes', saveWallet secretKeyBytes wallet = .ok bytes' ∧
        loadWallet signingKeyFromBytes bytes' = .ok wallet := by
  have hsaves := saveWallet_loads h hkeys
  constructor
  · intro wallet hf
    refine ⟨⟨fun hsaved => ?_, fun hv => ?_⟩, fun bytes rest hsave => ?_⟩
    · obtain ⟨bytes, hsave⟩ := hsaved
      exact saveWallet_valid hsave
    · obtain ⟨bytes, hsave, -⟩ := hsaves wallet hv hf
      exact ⟨bytes, hsave⟩
    · obtain ⟨bytes', hsave', hreads⟩ := hsaves wallet (saveWallet_valid hsave) hf
      cases hsave'.symm.trans hsave
      exact hreads rest
  · intro bytes wallet hloaded
    obtain ⟨hv, hf⟩ := loadWallet_good h hdefault bytes wallet hloaded
    obtain ⟨bytes', hsave, hreads⟩ := hsaves wallet hv hf
    have hreload := hreads []
    rw [List.append_nil] at hreload
    exact ⟨bytes', hsave, hreload⟩

/-- Over any commands that add keys, some of which may fail, a wallet file that loads keeps loading:
the keys that were there stay first and as they are, each name stands for the first key that was
given for it, and the default key is still there. -/
theorem new_keys_keep_wallet (memory : Nat → Bool) (h : Standard memory)
    (signingKeyFromBytes : Bytes32 → SigningKey) (secretKeyBytes : SigningKey → Bytes32)
    (hkeys : Function.LeftInverse signingKeyFromBytes secretKeyBytes)
    (hdefault : memory defaultKeyName.utf8.length = true) (bytes : Bytes)
    (wallet : Wallet SigningKey) (hload : loadWallet signingKeyFromBytes bytes = .ok wallet)
    (commands : List (Text × SigningKey))
    (hnames : ∀ command ∈ commands, Storable memory command.1.utf8)
    (hroom : wallet.keys.length + commands.length < 2^64) :
    ∃ wallet', loadWallet signingKeyFromBytes
        (afterNewKeys signingKeyFromBytes secretKeyBytes bytes commands) = .ok wallet' ∧
      wallet'.defaultKey = wallet.defaultKey ∧ wallet.keys <+: wallet'.keys ∧
      (∀ name, wallet'.lookup name = (wallet.lookup name).or
        ((commands.find? fun command => command.1 == name).map Prod.snd)) ∧
      (∀ key ∈ wallet'.keys, wallet'.key key.name = .ok key) ∧
      ∃ key ∈ wallet.keys, key.name = wallet.defaultKey ∧
        (wallet'.defaultWalletKey : Res WalletError _) = .ok key := by
  obtain ⟨hv, -⟩ := loadWallet_good h hdefault bytes wallet hload
  obtain ⟨wallet', hload', hext⟩ :=
    afterNewKeys_extends h hkeys hdefault hload commands hnames hroom
  obtain ⟨hv', -⟩ := loadWallet_good h hdefault _ wallet' hload'
  refine ⟨wallet', hload', hext.default, hext.keys, hext.lookup, fun key hkey => ?_, ?_⟩
  · rw [Wallet.key, Wallet.find_name wallet'.keys hv'.nodup key hkey]
    rfl
  · obtain ⟨key, hkey, hname⟩ := List.mem_map.mp hv.default_mem
    have hfind := Wallet.find_name wallet'.keys hv'.nodup key (hext.keys.subset hkey)
    refine ⟨key, hkey, hname, ?_⟩
    rw [Wallet.defaultWalletKey, hext.default, ← hname, hfind]
    rfl

end Wallets

section SampleFiles

attribute [local instance] smallBincode

/-- Two keys under different names, the second one the default. -/
def twoKeys : Wallet Bytes32 := ⟨⟨[98]⟩, [⟨⟨[97]⟩, sevens⟩, ⟨⟨[98]⟩, zeroBytes⟩]⟩

theorem twoKeys_fits : twoKeys.Fits smallMemory := by
  refine ⟨by decide, fun name hname => ?_⟩
  have hcases : name = ⟨[97]⟩ ∨ name = ⟨[98]⟩ := by
    simpa [Wallet.names, twoKeys] using hname
  obtain rfl | rfl := hcases
  · exact ⟨by decide +kernel, by decide, rfl⟩
  · exact ⟨by decide +kernel, by decide, rfl⟩

/-- The file is read back also with a byte after it. -/
theorem twoKeys_roundTrip :
    ∃ bytes, saveWallet id twoKeys = .ok bytes ∧
      loadWallet (id : Bytes32 → Bytes32) (bytes ++ [255]) = .ok twoKeys := by
  have hvalid : twoKeys.Valid := ⟨by decide +kernel, by decide +kernel⟩
  obtain ⟨hsaved, hreads⟩ := (wallet_file_roundTrip smallMemory smallBincode_standard
    (id : Bytes32 → Bytes32) id (fun _ => rfl) rfl).1 twoKeys twoKeys_fits
  obtain ⟨bytes, hsave⟩ := hsaved.mpr hvalid
  exact ⟨bytes, hsave, hreads bytes [255] hsave⟩

/-- Two keys are added under one name to a file of the older kind; the second is refused. -/
theorem sevens_keeps_first :
    ∃ wallet, loadWallet id (afterNewKeys id id sevens.toList
        [(⟨[97]⟩, zeroBytes), (⟨[97]⟩, sevens)]) = .ok wallet ∧
      wallet.lookup ⟨[97]⟩ = some zeroBytes ∧ wallet.lookup defaultKeyName = some sevens := by
  have hload : loadWallet (id : Bytes32 → Bytes32) sevens.toList = .ok (.fromSigningKey sevens) := rfl
  have hname : Storable smallMemory [97] := ⟨by decide +kernel, by decide, rfl⟩
  obtain ⟨wallet, hafter, -, -, hlookup, -⟩ := new_keys_keep_wallet smallMemory
    smallBincode_standard (id : Bytes32 → Bytes32) id (fun _ => rfl) rfl _ _ hload
    [(⟨[97]⟩, zeroBytes), (⟨[97]⟩, sevens)] (by simpa using hname) (by decide)
  refine ⟨wallet, hafter, ?_, ?_⟩
  · rw [hlookup]
    decide +kernel
  · rw [hlookup]
    decide +kernel

end SampleFiles

end Wobble

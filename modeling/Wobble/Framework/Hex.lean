import Wobble.Framework.Codec

namespace Hex

/-- The lower-case digit `{:x}` prints, as its ASCII byte. -/
def digit (n : Nat) : UInt8 := if n < 10 then UInt8.ofNat (48 + n) else UInt8.ofNat (87 + n)

/-- The two digits `{:02x}` prints for each byte. Strings are their UTF-8 bytes, which is
also how they compare. -/
def render (bytes : List UInt8) : List UInt8 :=
  bytes.flatMap fun b => [digit (b.toNat / 16), digit (b.toNat % 16)]

/-- `char::to_digit(16)` on one byte. -/
def toDigit (c : UInt8) : Option Nat :=
  let n := c.toNat
  if 48 ≤ n ∧ n ≤ 57 then some (n - 48)
  else if 97 ≤ n ∧ n ≤ 102 then some (n - 87)
  else if 65 ≤ n ∧ n ≤ 70 then some (n - 55)
  else none

def accumulate (n : Nat) (c : UInt8) : Option Nat := do
  let d ← toDigit c
  if n * 16 + d < 256 then some (n * 16 + d) else none

/-- `u8::from_str_radix(_, 16)`: one leading `+` is skipped, and a sign alone or nothing
at all is an error. -/
def fromStrRadix (src : List UInt8) : Option UInt8 :=
  match src with
  | [] => none
  | [c] => if c = 43 ∨ c = 45 then none else (accumulate 0 c).map UInt8.ofNat
  | c :: rest => ((if c = 43 then rest else c :: rest).foldlM accumulate 0).map UInt8.ofNat

/-- `str::from_utf8` on a two-byte chunk. -/
def isUtf8Pair (a b : UInt8) : Bool :=
  (a.toNat < 128 && b.toNat < 128) ||
    (194 ≤ a.toNat && a.toNat ≤ 223 && 128 ≤ b.toNat && b.toNat ≤ 191)

def decodePairs : List UInt8 → Option (List UInt8)
  | a :: b :: rest => do
    if !isUtf8Pair a b then none
    let byte ← fromStrRadix [a, b]
    let bytes ← decodePairs rest
    return byte :: bytes
  | _ => some []

def decode (value : List UInt8) : Option (List UInt8) :=
  if value.length % 2 ≠ 0 then none else decodePairs value

theorem render_cons (b : UInt8) (bytes : List UInt8) :
    render (b :: bytes) = digit (b.toNat / 16) :: digit (b.toNat % 16) :: render bytes := rfl

theorem render_length (bytes : List UInt8) : (render bytes).length = 2 * bytes.length := by
  induction bytes with
  | nil => rfl
  | cons b bytes ih =>
    simp only [render_cons, List.length_cons, ih]
    omega

private theorem pair_digits : ∀ n : Fin 256,
    isUtf8Pair (digit (n.val / 16)) (digit (n.val % 16)) = true ∧
      fromStrRadix [digit (n.val / 16), digit (n.val % 16)] = some (UInt8.ofNat n.val) := by
  decide +kernel

theorem decodePairs_render (bytes : List UInt8) : decodePairs (render bytes) = some bytes := by
  induction bytes with
  | nil => rfl
  | cons b bytes ih =>
    have hb := pair_digits ⟨b.toNat, b.toNat_lt⟩
    rw [render_cons, decodePairs, hb.1, hb.2, ih]
    simp

theorem decode_render (bytes : List UInt8) : decode (render bytes) = some bytes := by
  rw [decode, if_neg, decodePairs_render]
  rw [render_length]
  omega

theorem render_injective : Function.Injective render := by
  intro a b h
  have ha := decode_render a
  rw [h, decode_render] at ha
  exact (Option.some.inj ha).symm

/-- One of `0` to `9`, `a` to `f` and `A` to `F`. -/
def IsDigit (c : UInt8) : Prop :=
  (48 ≤ c.toNat ∧ c.toNat ≤ 57) ∨ (97 ≤ c.toNat ∧ c.toNat ≤ 102) ∨ (65 ≤ c.toNat ∧ c.toNat ≤ 70)

instance (c : UInt8) : Decidable (IsDigit c) := by
  unfold IsDigit
  infer_instance

/-- `to_ascii_lowercase` on one byte. -/
def lower (c : UInt8) : UInt8 :=
  if 65 ≤ c.toNat ∧ c.toNat ≤ 90 then UInt8.ofNat (c.toNat + 32) else c

def pairs : List UInt8 → List (UInt8 × UInt8)
  | a :: b :: rest => (a, b) :: pairs rest
  | _ => []

/-- Two digits, or a sign and a digit. -/
def ReadPair (p : UInt8 × UInt8) : Prop := (IsDigit p.1 ∨ p.1 = 43) ∧ IsDigit p.2

theorem digits_iff_pairs (value : List UInt8) (heven : value.length % 2 = 0) :
    (∀ c ∈ value, IsDigit c) ↔ ∀ p ∈ pairs value, IsDigit p.1 ∧ IsDigit p.2 := by
  induction value using pairs.induct with
  | case1 a b rest ih =>
    simp only [List.length_cons] at heven
    rw [pairs, List.forall_mem_cons, List.forall_mem_cons, List.forall_mem_cons, ih (by omega),
      and_assoc]
  | case2 value hshort =>
    rcases value with _ | ⟨a, _ | ⟨b, rest⟩⟩
    · simp [pairs]
    · cases heven
    · exact absurd rfl (hshort a b rest)

theorem toDigit_spec (c : UInt8) :
    match toDigit c with
    | none => ¬ IsDigit c
    | some d => IsDigit c ∧ d < 16 := by
  unfold toDigit IsDigit
  dsimp only
  split_ifs <;> dsimp only <;> omega

theorem toDigit_isSome_iff (c : UInt8) : (∃ d, toDigit c = some d) ↔ IsDigit c := by
  have hspec := toDigit_spec c
  cases h : toDigit c with
  | none =>
    rw [h] at hspec
    exact ⟨fun hd => (nomatch hd), fun hd => absurd hd hspec⟩
  | some d =>
    rw [h] at hspec
    exact ⟨fun _ => hspec.1, fun _ => ⟨d, rfl⟩⟩

theorem toDigit_lt {c : UInt8} {d : Nat} (h : toDigit c = some d) : d < 16 := by
  have hspec := toDigit_spec c
  rw [h] at hspec
  exact hspec.2

private theorem lower_digits : ∀ n : Fin 256,
    (toDigit (UInt8.ofNat n.val)).all (fun d => lower (UInt8.ofNat n.val) = digit d) = true := by
  decide +kernel

theorem lower_eq_digit (c : UInt8) (d : Nat) (h : toDigit c = some d) : lower c = digit d := by
  have hall := lower_digits ⟨c.toNat, c.toNat_lt⟩
  rw [UInt8.ofNat_toNat, h] at hall
  exact of_decide_eq_true hall

theorem accumulate_eq (n : Nat) (hn : n < 16) (c : UInt8) :
    accumulate n c = (toDigit c).map fun d => n * 16 + d := by
  unfold accumulate
  cases h : toDigit c with
  | none => rfl
  | some d =>
    have hd := toDigit_lt h
    exact if_pos (by omega)

theorem fromStrRadix_pair (a b : UInt8) :
    fromStrRadix [a, b] =
      if a = 43 then (toDigit b).map UInt8.ofNat
      else (toDigit a).bind fun x => (toDigit b).map fun y => UInt8.ofNat (x * 16 + y) := by
  change ((if a = 43 then [b] else [a, b]).foldlM accumulate 0).map UInt8.ofNat = _
  split_ifs with hsign
  · rw [List.foldlM_cons, accumulate_eq 0 (by decide)]
    cases toDigit b <;> simp
  · rw [List.foldlM_cons, accumulate_eq 0 (by decide)]
    cases ha : toDigit a with
    | none => rfl
    | some x =>
      have hx := toDigit_lt ha
      simp only [Option.map_some, Option.bind_eq_bind, Option.bind_some, List.foldlM_cons,
        List.foldlM_nil]
      rw [accumulate_eq _ (by omega)]
      cases toDigit b <;> simp

theorem fromStrRadix_pair_isSome (a b : UInt8) :
    (∃ byte, fromStrRadix [a, b] = some byte) ↔ ReadPair (a, b) := by
  rw [fromStrRadix_pair, ReadPair, ← toDigit_isSome_iff, ← toDigit_isSome_iff]
  have hplus : toDigit 43 = none := by decide
  split_ifs with hsign
  · cases toDigit b <;> simp [hsign]
  · cases toDigit a <;> cases toDigit b <;> simp [hsign]

/-- A chunk that reads as a number is ASCII. -/
theorem isUtf8Pair_of_readPair (a b : UInt8) (h : ReadPair (a, b)) : isUtf8Pair a b = true := by
  obtain ⟨ha, hb⟩ := h
  have ha' : a.toNat < 128 := by
    rcases ha with ha | ha
    · unfold IsDigit at ha
      dsimp only at ha
      omega
    · rw [show a = 43 from ha]
      decide
  have hb' : b.toNat < 128 := by
    unfold IsDigit at hb
    dsimp only at hb
    omega
  simp [isUtf8Pair, ha', hb']

theorem decodePairs_cons (a b : UInt8) (rest : List UInt8) :
    decodePairs (a :: b :: rest) =
      (fromStrRadix [a, b]).bind fun byte => (decodePairs rest).map fun bytes => byte :: bytes := by
  rw [decodePairs]
  cases h : fromStrRadix [a, b] with
  | none => cases isUtf8Pair a b <;> rfl
  | some byte =>
    have hread := (fromStrRadix_pair_isSome a b).mp ⟨byte, h⟩
    rw [isUtf8Pair_of_readPair a b hread]
    cases decodePairs rest <;> rfl

theorem decodePairs_isSome (value : List UInt8) :
    (∃ bytes, decodePairs value = some bytes) ↔ ∀ p ∈ pairs value, ReadPair p := by
  induction value using pairs.induct with
  | case1 a b rest ih =>
    rw [pairs, List.forall_mem_cons, ← ih, ← fromStrRadix_pair_isSome, decodePairs_cons]
    cases fromStrRadix [a, b] <;> cases decodePairs rest <;> simp
  | case2 value h =>
    have hp : pairs value = [] := pairs.eq_2 value h
    have hd : decodePairs value = some [] := decodePairs.eq_2 value h
    simp [hp, hd]

theorem decodePairs_length (value bytes : List UInt8) (h : decodePairs value = some bytes) :
    bytes.length = value.length / 2 := by
  induction value using pairs.induct generalizing bytes with
  | case1 a b rest ih =>
    rw [decodePairs_cons, Option.bind_eq_some_iff] at h
    obtain ⟨byte, -, h⟩ := h
    obtain ⟨tail, htail, rfl⟩ := Option.map_eq_some_iff.mp h
    have hlen := ih tail htail
    simp only [List.length_cons, hlen]
    omega
  | case2 value hshort =>
    rw [decodePairs.eq_2 value hshort] at h
    obtain rfl := Option.some.inj h
    rcases value with _ | ⟨a, _ | ⟨b, rest⟩⟩
    · rfl
    · simp
    · exact absurd rfl (hshort a b rest)

/-- Digits decode to the bytes whose rendering they are, up to letter case. -/
theorem decodePairs_digits (value : List UInt8) (heven : value.length % 2 = 0)
    (hdigits : ∀ c ∈ value, IsDigit c) :
    ∃ bytes, decodePairs value = some bytes ∧ value.map lower = render bytes := by
  induction value using pairs.induct with
  | case1 a b rest ih =>
    rw [List.forall_mem_cons, List.forall_mem_cons] at hdigits
    obtain ⟨ha, hb, hrest⟩ := hdigits
    obtain ⟨x, hx⟩ := (toDigit_isSome_iff a).mpr ha
    obtain ⟨y, hy⟩ := (toDigit_isSome_iff b).mpr hb
    have hx16 := toDigit_lt hx
    have hy16 := toDigit_lt hy
    have hsign : a ≠ 43 := by
      rintro rfl
      exact absurd ha (by decide)
    simp only [List.length_cons] at heven
    obtain ⟨bytes, hbytes, hlower⟩ := ih (by omega) hrest
    refine ⟨UInt8.ofNat (x * 16 + y) :: bytes, ?_, ?_⟩
    · rw [decodePairs_cons, fromStrRadix_pair, if_neg hsign, hx, hy, hbytes]
      rfl
    · rw [List.map_cons, List.map_cons, lower_eq_digit a x hx, lower_eq_digit b y hy, hlower]
      have hbyte : (UInt8.ofNat (x * 16 + y)).toNat = x * 16 + y :=
        UInt8.toNat_ofNat_of_lt (by norm_num; omega)
      have hhigh : (x * 16 + y) / 16 = x := by omega
      have hlow : (x * 16 + y) % 16 = y := by omega
      rw [render_cons, hbyte, hhigh, hlow]
  | case2 value hshort =>
    rcases value with _ | ⟨a, _ | ⟨b, rest⟩⟩
    · exact ⟨[], rfl, rfl⟩
    · cases heven
    · exact absurd rfl (hshort a b rest)

end Hex

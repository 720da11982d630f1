import Wobble.Framework.Rust

namespace Codec

open Rust

/-- The `width` low bytes of `n`, least significant first. -/
def toLeBytes : Nat → Nat → List UInt8
  | 0, _ => []
  | width + 1, n => UInt8.ofNat n :: toLeBytes width (n / 256)

/-- A byte string read as a big-endian integer. -/
def ofBeBytes (bytes : List UInt8) : Nat := bytes.foldl (fun n b => n * 256 + b.toNat) 0

/-- The numbers by which byte strings are compared, first byte first. -/
def order (bytes : List UInt8) : List Nat := bytes.map UInt8.toNat

theorem order_injective : Function.Injective order :=
  List.map_injective_iff.mpr fun _ _ h => UInt8.toNat_inj.mp h

theorem ofBeBytes_lt (bytes : List UInt8) : ofBeBytes bytes < 256 ^ bytes.length := by
  induction bytes using List.reverseRecOn with
  | nil => decide
  | append_singleton bytes b ih =>
    have hb := b.toNat_lt
    rw [ofBeBytes, List.foldl_append, List.length_append, pow_add]
    change ofBeBytes bytes * 256 + b.toNat < _
    simp only [List.length_singleton, pow_one]
    omega

@[simp] theorem toLeBytes_length (width n : Nat) : (toLeBytes width n).length = width := by
  induction width generalizing n with
  | zero => rfl
  | succ width ih => simp [toLeBytes, ih]

theorem toLeBytes_inj (width m n : Nat) (hm : m < 256 ^ width) (hn : n < 256 ^ width)
    (h : toLeBytes width m = toLeBytes width n) : m = n := by
  induction width generalizing m n with
  | zero => simp at hm hn; omega
  | succ width ih =>
    simp only [toLeBytes, List.cons.injEq] at h
    rw [Nat.pow_succ] at hm hn
    have hq : m / 256 = n / 256 := ih _ _ (by omega) (by omega) h.2
    have hr : m % 256 = n % 256 := by simpa using congrArg UInt8.toNat h.1
    omega

theorem ofBeBytes_concat (bytes : List UInt8) (b : UInt8) :
    ofBeBytes (bytes ++ [b]) = ofBeBytes bytes * 256 + b.toNat := by
  simp [ofBeBytes]

theorem ofBeBytes_toLeBytes (width n : Nat) (h : n < 256 ^ width) :
    ofBeBytes (toLeBytes width n).reverse = n := by
  induction width generalizing n with
  | zero =>
    simp at h
    simp [toLeBytes, ofBeBytes, h]
  | succ width ih =>
    rw [Nat.pow_succ] at h
    have hrest := ih (n / 256) (by omega)
    rw [toLeBytes, List.reverse_cons, ofBeBytes_concat, hrest, UInt8.toNat_ofNat']
    omega

section Reads

variable {α β : Type}

/-- What follows an encoded value does not matter: the bytes fix `view` of the value and
where it ends. -/
def Reads (P : α → Prop) (f : α → List UInt8) (view : α → β) : Prop :=
  ∀ a b x y, P a → P b → f a ++ x = f b ++ y → view a = view b ∧ x = y

theorem reads_fixed (P : α → Prop) (f : α → List UInt8) (view : α → β) (n : Nat)
    (hl : ∀ a, P a → (f a).length = n)
    (hi : ∀ a b, P a → P b → f a = f b → view a = view b) : Reads P f view := by
  intro a b x y ha hb h
  obtain ⟨hf, hx⟩ := List.append_inj h (by rw [hl a ha, hl b hb])
  exact ⟨hi a b ha hb hf, hx⟩

theorem reads_le (width : Nat) : Reads (· < 256 ^ width) (toLeBytes width) id :=
  reads_fixed _ _ _ width (fun n _ => toLeBytes_length width n)
    fun m n hm hn h => toLeBytes_inj width m n hm hn h

/-- A 4-byte count followed by that many bytes. -/
theorem reads_counted : Reads (fun data : List UInt8 => data.length < 2^32)
    (fun data => toLeBytes 4 data.length ++ data) id := by
  intro a b x y ha hb h
  rw [List.append_assoc, List.append_assoc] at h
  obtain ⟨hl, hr⟩ := reads_le 4 _ _ _ _ (by norm_num; omega) (by norm_num; omega) h
  exact List.append_inj hr hl

theorem Reads.list {P : α → Prop} {f : α → List UInt8} {view : α → β} (hf : Reads P f view)
    (as bs : List α) (x y : List UInt8) (hl : as.length = bs.length) (ha : ∀ a ∈ as, P a)
    (hb : ∀ b ∈ bs, P b) (h : as.flatMap f ++ x = bs.flatMap f ++ y) :
    as.map view = bs.map view ∧ x = y := by
  induction as generalizing bs with
  | nil =>
    have he : bs = [] := List.eq_nil_of_length_eq_zero (by simpa using hl.symm)
    subst he
    simpa using h
  | cons a as ih =>
    cases bs with
    | nil => simp at hl
    | cons b bs =>
      simp only [List.flatMap_cons, List.append_assoc] at h
      obtain ⟨hv, hr⟩ := hf a b _ _ (ha a (by simp)) (hb b (by simp)) h
      obtain ⟨hm, hx⟩ := ih bs (by simpa using hl) (fun c hc => ha c (by simp [hc]))
        (fun c hc => hb c (by simp [hc])) hr
      exact ⟨by simp [hv, hm], hx⟩

end Reads

section Encoders

variable {ε α : Type}

/-- Encodes the elements one after another. -/
def encodeAll (f : α → Res ε (List UInt8)) : List α → Res ε (List UInt8)
  | [] => .ok []
  | a :: as => do
    let head ← f a
    let tail ← encodeAll f as
    return head ++ tail

theorem encodeAll_eq (f : α → Res ε (List UInt8)) (g : α → List UInt8) (P : α → Prop)
    [DecidablePred P] (m : String)
    (hf : ∀ a, f a = if P a then .ok (g a) else .error (.panic m)) (as : List α) :
    encodeAll f as = if ∀ a ∈ as, P a then .ok (as.flatMap g) else .error (.panic m) := by
  induction as with
  | nil => simp [encodeAll]
  | cons a as ih =>
    rw [encodeAll, hf, ih]
    by_cases ha : P a
    · by_cases hs : ∀ b ∈ as, P b
      · rw [if_pos ha, if_pos hs, if_pos (List.forall_mem_cons.mpr ⟨ha, hs⟩)]
        rfl
      · rw [if_pos ha, if_neg hs, if_neg fun h => hs (List.forall_mem_cons.mp h).2]
        rfl
    · rw [if_neg ha, if_neg fun h => ha (List.forall_mem_cons.mp h).1]
      rfl

end Encoders

end Codec

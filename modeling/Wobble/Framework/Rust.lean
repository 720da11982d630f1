import Mathlib

namespace Rust

/-- How a call ends without a value: an `Err` it returns, or a panic with its message. -/
inductive Fault (ε : Type) where
  | err (e : ε)
  | panic (message : String)
  deriving DecidableEq, Repr

/-- The outcome of a call that may return `Err` and may panic. -/
abbrev Res (ε α : Type) := Except (Fault ε) α

namespace Res

variable {ε ε' α β : Type}

def mapErr (f : ε → ε') : Res ε α → Res ε' α
  | .ok a => .ok a
  | .error (.err e) => .error (.err (f e))
  | .error (.panic m) => .error (.panic m)

def okOr (e : ε) : Option α → Res ε α
  | some a => .ok a
  | none => .error (.err e)

def expect (message : String) : Option α → Res ε α
  | some a => .ok a
  | none => .error (.panic message)

/-- `Result::expect`: an `Err` becomes a panic. -/
def expectOk (message : String) : Res ε α → Res ε' α
  | .ok a => .ok a
  | .error (.err _) => .error (.panic message)
  | .error (.panic m) => .error (.panic m)

/-- A fallible map over a list, in order, up to the first failure. -/
def mapAll (f : α → Res ε β) : List α → Res ε (List β)
  | [] => .ok []
  | a :: rest => do
    let b ← f a
    let bs ← mapAll f rest
    return b :: bs

/-- `is_ok`: an `Err` becomes `false`, while a panic goes on unwinding. -/
def isOk : Res ε α → Res ε' Bool
  | .ok _ => .ok true
  | .error (.err _) => .ok false
  | .error (.panic m) => .error (.panic m)

/-- The call came back to its caller, with `Ok` or with `Err`. -/
def Returned (x : Res ε α) : Prop := ∀ m, x ≠ .error (.panic m)

theorem bind_eq_ok (x : Res ε α) (f : α → Res ε β) (b : β) :
    (x >>= f) = .ok b ↔ ∃ a, x = .ok a ∧ f a = .ok b := by
  cases x with
  | ok a => simp [bind, Except.bind]
  | error e => simp [bind, Except.bind]

theorem then_eq_ok (x : Res ε Unit) (f : Unit → Res ε β) (b : β) :
    (x >>= f) = .ok b ↔ x = .ok () ∧ f () = .ok b := by
  rw [bind_eq_ok]
  constructor
  · intro h
    obtain ⟨_, h⟩ := h
    exact h
  · exact fun h => ⟨(), h⟩

theorem bind_eq_error (x : Res ε α) (f : α → Res ε β) (e : Fault ε) :
    (x >>= f) = .error e ↔ x = .error e ∨ ∃ a, x = .ok a ∧ f a = .error e := by
  cases x with
  | ok a => simp [bind, Except.bind]
  | error e' => simp [bind, Except.bind]

@[simp] theorem ok_bind (a : α) (f : α → Res ε β) : ((Except.ok a : Res ε α) >>= f) = f a := rfl

@[simp] theorem error_bind (e : Fault ε) (f : α → Res ε β) :
    ((Except.error e : Res ε α) >>= f) = .error e := rfl

@[simp] theorem pure_eq_ok (a : α) : (pure a : Res ε α) = .ok a := rfl

@[simp] theorem throw_eq_error (e : Fault ε) : (throw e : Res ε α) = .error e := rfl

@[simp] theorem mapErr_ok (f : ε → ε') (a : α) : mapErr f (.ok a) = .ok a := rfl

@[simp] theorem mapErr_panic (f : ε → ε') (m : String) :
    mapErr f (.error (.panic m) : Res ε α) = .error (.panic m) := rfl

@[simp] theorem mapErr_err (f : ε → ε') (e : ε) :
    mapErr f (.error (.err e) : Res ε α) = .error (.err (f e)) := rfl

@[simp] theorem mapErr_eq_ok (f : ε → ε') (x : Res ε α) (a : α) :
    mapErr f x = .ok a ↔ x = .ok a := by
  rcases x with (e | m) | b <;> simp [mapErr]

@[simp] theorem mapErr_eq_panic (f : ε → ε') (x : Res ε α) (m : String) :
    mapErr f x = .error (.panic m) ↔ x = .error (.panic m) := by
  rcases x with (e | m) | b <;> simp [mapErr]

@[simp] theorem mapErr_eq_err (f : ε → ε') (x : Res ε α) (e' : ε') :
    mapErr f x = .error (.err e') ↔ ∃ e, x = .error (.err e) ∧ f e = e' := by
  rcases x with (e | m) | b <;> simp [mapErr]

@[simp] theorem okOr_eq_ok (e : ε) (x : Option α) (a : α) :
    okOr e x = .ok a ↔ x = some a := by
  cases x <;> simp [okOr]

@[simp] theorem okOr_eq_error (e : ε) (x : Option α) (e' : Fault ε) :
    okOr e x = .error e' ↔ x = none ∧ e' = .err e := by
  cases x <;> simp [okOr, eq_comm]

@[simp] theorem okOr_some (e : ε) (a : α) : okOr e (some a) = .ok a := rfl

@[simp] theorem expect_some (m : String) (a : α) : (expect m (some a) : Res ε α) = .ok a := rfl

@[simp] theorem expect_eq_ok (m : String) (x : Option α) (a : α) :
    (expect m x : Res ε α) = .ok a ↔ x = some a := by
  cases x <;> simp [expect]

@[simp] theorem expectOk_ok (m : String) (a : α) :
    (expectOk m (.ok a : Res ε α) : Res ε' α) = .ok a := rfl

theorem mapAll_eq (f : α → Res ε β) (g : α → β) (l : List α) (h : ∀ a ∈ l, f a = .ok (g a)) :
    mapAll f l = .ok (l.map g) := by
  induction l with
  | nil => rfl
  | cons a l ih =>
    have ha := h a List.mem_cons_self
    have hl := ih fun b hb => h b (List.mem_cons_of_mem a hb)
    rw [mapAll, ha, hl]
    rfl

theorem mapAll_eq_ok (f : α → Res ε β) (l : List α) (bs : List β) :
    mapAll f l = .ok bs ↔ List.Forall₂ (fun a b => f a = .ok b) l bs := by
  induction l generalizing bs with
  | nil =>
    rw [mapAll, List.forall₂_nil_left_iff, Except.ok.injEq, eq_comm]
  | cons a l ih =>
    rw [mapAll, bind_eq_ok, List.forall₂_cons_left_iff]
    refine exists_congr fun b => ?_
    rw [bind_eq_ok]
    constructor
    · intro h
      obtain ⟨ha, bs', hl, h⟩ := h
      cases h
      exact ⟨bs', ha, (ih bs').mp hl, rfl⟩
    · intro h
      obtain ⟨bs', ha, hl, rfl⟩ := h
      exact ⟨ha, bs', (ih bs').mpr hl, rfl⟩

theorem mem_of_mapAll {f : α → Res ε β} {l : List α} {bs : List β} (h : mapAll f l = .ok bs)
    (b : β) (hb : b ∈ bs) : ∃ a ∈ l, f a = .ok b := by
  rw [mapAll_eq_ok] at h
  induction h with
  | nil => cases hb
  | cons ha _ ih =>
    rcases List.mem_cons.mp hb with rfl | hb
    · exact ⟨_, List.mem_cons_self, ha⟩
    · obtain ⟨a, hal, ha⟩ := ih hb
      exact ⟨a, List.mem_cons_of_mem _ hal, ha⟩

theorem mapAll_map {γ : Type} (f : α → Res ε β) (g : γ → α) (l : List γ) :
    mapAll f (l.map g) = mapAll (f ∘ g) l := by
  induction l with
  | nil => rfl
  | cons c l ih =>
    rw [List.map_cons, mapAll, mapAll, ih]
    rfl

theorem mapAll_eq_filterMap (f : α → Res ε β) (g : α → Option β) (l : List α)
    (h : ∀ a ∈ l, ∃ b, f a = .ok b ∧ g a = some b) : mapAll f l = .ok (l.filterMap g) := by
  induction l with
  | nil => rfl
  | cons a l ih =>
    obtain ⟨b, hf, hg⟩ := h a List.mem_cons_self
    have hl := ih fun b hb => h b (List.mem_cons_of_mem a hb)
    rw [mapAll, hf, hl, List.filterMap_cons, hg]
    rfl

@[simp] theorem isOk_ok (a : α) : (isOk (.ok a : Res ε α) : Res ε' Bool) = .ok true := rfl

@[simp] theorem isOk_err (e : ε) :
    (isOk (.error (.err e) : Res ε α) : Res ε' Bool) = .ok false := rfl

theorem returned_of_ok {x : Res ε α} (a : α) (h : x = .ok a) : Returned x := by
  intro m hm
  rw [h] at hm
  cases hm

/-- Every `Err` the call returns is in `P`. -/
def ErrIn (P : ε → Prop) (x : Res ε α) : Prop := ∀ e, x = .error (.err e) → P e

section ErrIn

variable {P : ε → Prop}

theorem errIn_ok (a : α) : ErrIn P (.ok a : Res ε α) := by
  intro e h
  cases h

theorem errIn_err {e : ε} (h : P e) : ErrIn P (.error (.err e) : Res ε α) := by
  intro e' he
  cases he
  exact h

theorem errIn_bind {x : Res ε α} {f : α → Res ε β} (hx : ErrIn P x) (hf : ∀ a, ErrIn P (f a)) :
    ErrIn P (x >>= f) := by
  intro e h
  rcases (bind_eq_error x f _).mp h with he | ⟨a, -, he⟩
  · exact hx e he
  · exact hf a e he

theorem errIn_mapAll {f : α → Res ε β} (hf : ∀ a, ErrIn P (f a)) (l : List α) :
    ErrIn P (mapAll f l) := by
  induction l with
  | nil => exact errIn_ok _
  | cons a rest ih => exact errIn_bind (hf a) fun _ => errIn_bind ih fun _ => errIn_ok _

theorem errIn_expect (m : String) (x : Option α) : ErrIn P (expect m x) := by
  intro e h
  cases x <;> cases h

theorem errIn_expectOk (m : String) (x : Res ε' α) : ErrIn P (expectOk m x) := by
  intro e h
  rcases x with (e' | m') | a <;> cases h

end ErrIn

end Res

/-- Both build profiles are covered: with overflow checks an unchecked `+` panics, without
them it wraps. -/
class Profile where
  overflowChecks : Bool

/-- `u64::checked_add`. -/
def checkedAdd (a b : UInt64) : Option UInt64 :=
  if a.toNat + b.toNat < 2^64 then some (a + b) else none

/-- `u64::saturating_add`. -/
def saturatingAdd (a b : UInt64) : UInt64 :=
  if a.toNat + b.toNat < 2^64 then a + b else UInt64.ofNat (2^64 - 1)

/-- `+` on `u64`, under either build profile. -/
def addU64 [Profile] {ε : Type} (a b : UInt64) : Res ε UInt64 :=
  if a.toNat + b.toNat < 2^64 then .ok (a + b)
  else if Profile.overflowChecks then .error (.panic "attempt to add with overflow")
  else .ok (a + b)

theorem toNat_add_of_lt (a b : UInt64) (h : a.toNat + b.toNat < 2^64) :
    (a + b).toNat = a.toNat + b.toNat := by
  rw [UInt64.toNat_add, Nat.mod_eq_of_lt h]

theorem checkedAdd_eq_some (a b c : UInt64) :
    checkedAdd a b = some c ↔ c.toNat = a.toNat + b.toNat := by
  unfold checkedAdd
  split_ifs with h
  · rw [Option.some.injEq, ← toNat_add_of_lt a b h]
    exact ⟨fun he => he ▸ rfl, fun he => (UInt64.toNat_inj.mp he).symm⟩
  · have hc := c.toNat_lt
    constructor
    · intro he
      simp at he
    · intro he
      omega

theorem addU64_of_lt [Profile] {ε : Type} (a b : UInt64) (h : a.toNat + b.toNat < 2^64) :
    (addU64 a b : Res ε UInt64) = .ok (a + b) := if_pos h

/-- A sum that stays below 2^64 comes out as it should, under either profile. -/
theorem foldlM_addU64 [Profile] {ε : Type} (values : List UInt64) (total : UInt64)
    (h : total.toNat + (values.map UInt64.toNat).sum < 2^64) :
    ∃ v, (values.foldlM addU64 total : Res ε UInt64) = .ok v ∧
      v.toNat = total.toNat + (values.map UInt64.toNat).sum := by
  induction values generalizing total with
  | nil => exact ⟨total, rfl, by simp⟩
  | cons value rest ih =>
    simp only [List.map_cons, List.sum_cons] at h ⊢
    have hlt : total.toNat + value.toNat < 2^64 := by omega
    have hadd := toNat_add_of_lt total value hlt
    obtain ⟨v, hv, hsum⟩ := ih (total + value) (by omega)
    refine ⟨v, ?_, by omega⟩
    rw [List.foldlM_cons, addU64_of_lt _ _ hlt, Res.ok_bind, hv]

theorem eq_of_addU64 [Profile] {ε : Type} (a b c : UInt64)
    (h : (addU64 a b : Res ε UInt64) = .ok c) :
    c = a + b := by
  unfold addU64 at h
  split_ifs at h
  · exact (Except.ok.inj h).symm
  · exact (Except.ok.inj h).symm

/-- A sum that comes out at all is right modulo 2^64. -/
theorem toNat_of_foldlM_addU64 [Profile] {ε : Type} (values : List UInt64) (total v : UInt64)
    (h : (values.foldlM addU64 total : Res ε UInt64) = .ok v) :
    v.toNat = (total.toNat + (values.map UInt64.toNat).sum) % 2^64 := by
  induction values generalizing total with
  | nil =>
    obtain rfl := Except.ok.inj h
    rw [List.map_nil, List.sum_nil, Nat.add_zero, Nat.mod_eq_of_lt (UInt64.toNat_lt _)]
  | cons value rest ih =>
    rw [List.foldlM_cons] at h
    obtain ⟨next, hnext, h⟩ := (Res.bind_eq_ok _ _ _).mp h
    rw [ih next h, eq_of_addU64 _ _ _ hnext, UInt64.toNat_add, List.map_cons, List.sum_cons]
    omega

theorem toNat_saturatingAdd (a b : UInt64) :
    (saturatingAdd a b).toNat = min (a.toNat + b.toNat) (2^64 - 1) := by
  unfold saturatingAdd
  split_ifs with h
  · rw [toNat_add_of_lt a b h]
    omega
  · have hmax : (UInt64.ofNat (2^64 - 1)).toNat = 2^64 - 1 := by decide
    rw [hmax]
    omega

/-- A saturating sum is the sum cut off at the largest value. -/
theorem toNat_foldl_saturatingAdd (values : List UInt64) (total : UInt64) :
    (values.foldl saturatingAdd total).toNat =
      min (total.toNat + (values.map UInt64.toNat).sum) (2^64 - 1) := by
  induction values generalizing total with
  | nil =>
    have hlt := total.toNat_lt
    simp only [List.foldl_nil, List.map_nil, List.sum_nil]
    omega
  | cons value rest ih =>
    have hstep := toNat_saturatingAdd total value
    simp only [List.foldl_cons, List.map_cons, List.sum_cons, ih]
    omega

end Rust

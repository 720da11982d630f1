import Wobble.Framework.Rust

namespace Rust

/-- A call on a state `S` in a world `W` that answers what it asks. `none` when the call does
not return; otherwise the state it leaves, whether it succeeds or fails. -/
def Io (W S ε α : Type) : Type := W → S → Option (S × Res ε α)

namespace Io

variable {W S ε ε' α β : Type}

instance : Monad (Io W S ε) where
  pure a := fun _ s => some (s, .ok a)
  bind m f := fun w s =>
    match m w s with
    | none => none
    | some (s, .ok a) => f a w s
    | some (s, .error e) => some (s, .error e)

def read : Io W S ε S := fun _ s => some (s, .ok s)

def modify (f : S → S) : Io W S ε Unit := fun _ s => some (f s, .ok ())

/-- What the world has to say in this state. -/
def ask (f : W → S → α) : Io W S ε α := fun w s => some (s, .ok (f w s))

def lift (r : Res ε α) : Io W S ε α := fun _ s => some (s, r)

/-- A computation that may not return. -/
def await (r : Option (Res ε α)) : Io W S ε α := fun _ s => r.map (Prod.mk s)

def fail (e : ε) : Io W S ε α := lift (.error (.err e))

/-- `?` with a conversion of the error. -/
def mapErr (f : ε → ε') (m : Io W S ε α) : Io W S ε' α := fun w s =>
  (m w s).map fun result => (result.1, result.2.mapErr f)

/-- The outcome as a value, for a caller that looks at it; a panic goes on unwinding. -/
def attempt (m : Io W S ε α) : Io W S ε' (Except ε α) := fun w s =>
  (m w s).map fun result => (result.1, match result.2 with
    | .ok a => .ok (.ok a)
    | .error (.err e) => .ok (.error e)
    | .error (.panic m) => .error (.panic m))

def forEach (f : α → Io W S ε Unit) : List α → Io W S ε Unit
  | [] => pure ()
  | a :: rest => do
    f a
    forEach f rest

theorem bind_apply (m : Io W S ε α) (f : α → Io W S ε β) (w : W) (s : S) :
    (m >>= f) w s = match m w s with
      | none => none
      | some (s, .ok a) => f a w s
      | some (s, .error e) => some (s, .error e) := rfl

theorem bind_eq_ok (m : Io W S ε α) (f : α → Io W S ε β) (w : W) (s s' : S) (b : β) :
    (m >>= f) w s = some (s', .ok b) ↔
      ∃ t a, m w s = some (t, .ok a) ∧ f a w t = some (s', .ok b) := by
  rw [bind_apply]
  rcases m w s with - | ⟨t, e | a⟩ <;> simp

theorem bind_eq_some (m : Io W S ε α) (f : α → Io W S ε β) (w : W) (s s' : S) (r : Res ε β) :
    (m >>= f) w s = some (s', r) ↔ (∃ e, m w s = some (s', .error e) ∧ r = .error e) ∨
      ∃ t a, m w s = some (t, .ok a) ∧ f a w t = some (s', r) := by
  rw [bind_apply]
  rcases m w s with - | ⟨t, e | a⟩
  · simp
  · simp [eq_comm, and_comm]
  · simp

theorem bind_of_ok {m : Io W S ε α} {w : W} {s t : S} {a : α} (h : m w s = some (t, .ok a))
    (f : α → Io W S ε β) : (m >>= f) w s = f a w t := by
  rw [bind_apply, h]

theorem bind_of_error {m : Io W S ε α} {w : W} {s t : S} {e : Fault ε}
    (h : m w s = some (t, .error e)) (f : α → Io W S ε β) :
    (m >>= f) w s = some (t, .error e) := by
  rw [bind_apply, h]

theorem bind_eq_error (m : Io W S ε α) (f : α → Io W S ε β) (w : W) (s s' : S) (e : Fault ε) :
    (m >>= f) w s = some (s', .error e) ↔ m w s = some (s', .error e) ∨
      ∃ t a, m w s = some (t, .ok a) ∧ f a w t = some (s', .error e) := by
  rw [bind_apply]
  rcases m w s with - | ⟨t, e' | a⟩ <;> simp

@[simp] theorem pure_apply (a : α) (w : W) (s : S) :
    (pure a : Io W S ε α) w s = some (s, .ok a) := rfl

@[simp] theorem read_apply (w : W) (s : S) : (read : Io W S ε S) w s = some (s, .ok s) := rfl

@[simp] theorem modify_apply (f : S → S) (w : W) (s : S) :
    (modify f : Io W S ε Unit) w s = some (f s, .ok ()) := rfl

@[simp] theorem ask_apply (f : W → S → α) (w : W) (s : S) :
    (ask f : Io W S ε α) w s = some (s, .ok (f w s)) := rfl

@[simp] theorem lift_apply (r : Res ε α) (w : W) (s : S) :
    (lift r : Io W S ε α) w s = some (s, r) := rfl

@[simp] theorem fail_apply (e : ε) (w : W) (s : S) :
    (fail e : Io W S ε α) w s = some (s, .error (.err e)) := rfl

@[simp] theorem await_some (r : Res ε α) (w : W) (s : S) :
    (await (some r) : Io W S ε α) w s = some (s, r) := rfl

theorem lift_eq_ok (r : Res ε α) (w : W) (s s' : S) (a : α) :
    (lift r : Io W S ε α) w s = some (s', .ok a) ↔ s' = s ∧ r = .ok a := by
  rw [lift_apply, Option.some.injEq, Prod.mk.injEq]
  exact and_congr_left' eq_comm

theorem mapErr_eq_ok (f : ε → ε') (m : Io W S ε α) (w : W) (s s' : S) (a : α) :
    mapErr f m w s = some (s', .ok a) ↔ m w s = some (s', .ok a) := by
  rw [mapErr]
  rcases m w s with - | ⟨t, (e | p) | b⟩ <;> simp

/-- A call whose error is converted, before others. -/
theorem mapErr_bind_eq_some {f : ε → ε'} {m : Io W S ε α} {k : α → Io W S ε' β} {w : W} {s s' : S}
    {r : Res ε' β} (h : (mapErr f m >>= k) w s = some (s', r)) :
    (∃ e, m w s = some (s', .error e) ∧ r = Res.mapErr f (.error e)) ∨
      ∃ t a, m w s = some (t, .ok a) ∧ k a w t = some (s', r) := by
  rw [bind_apply, mapErr] at h
  rcases hm : m w s with - | ⟨t, (e | p) | a⟩
  · rw [hm] at h
    cases h
  · rw [hm] at h
    cases h
    exact .inl ⟨.err e, rfl, rfl⟩
  · rw [hm] at h
    cases h
    exact .inl ⟨.panic p, rfl, rfl⟩
  · rw [hm] at h
    exact .inr ⟨t, a, rfl, h⟩

theorem attempt_eq_ok (m : Io W S ε α) (w : W) (s s' : S) (a : α) :
    (attempt m : Io W S ε' (Except ε α)) w s = some (s', .ok (.ok a)) ↔
      m w s = some (s', .ok a) := by
  rw [attempt]
  rcases m w s with - | ⟨t, (e | p) | b⟩ <;> simp

theorem attempt_eq_some {m : Io W S ε α} {w : W} {s s' : S} {r : Res ε' (Except ε α)}
    (h : (attempt m : Io W S ε' (Except ε α)) w s = some (s', r)) :
    ∃ r', m w s = some (s', r') := by
  obtain ⟨⟨t, x⟩, hx, he⟩ := Option.map_eq_some_iff.mp h
  cases he
  exact ⟨x, hx⟩

/-- The caller of `attempt` goes on after both ends of the call, but not after a panic. -/
theorem attempt_bind_cases {m : Io W S ε α} {k : Except ε α → Io W S ε' β} {w : W} {s s' : S}
    {r : Res ε' β} (h : (attempt m >>= k) w s = some (s', r)) :
    (∃ p, m w s = some (s', .error (.panic p)) ∧ r = .error (.panic p)) ∨
      ∃ t result, m w s = some (t, Except.mapError Fault.err result) ∧
        k result w t = some (s', r) := by
  rw [bind_apply, attempt] at h
  rcases hm : m w s with - | ⟨t, (e | p) | a⟩
  · rw [hm] at h
    cases h
  · rw [hm] at h
    exact .inr ⟨t, .error e, rfl, h⟩
  · rw [hm] at h
    cases h
    exact .inl ⟨p, rfl, rfl⟩
  · rw [hm] at h
    exact .inr ⟨t, .ok a, rfl, h⟩

/-- A panic of the one call is a panic of the other. -/
def Unwinds (x : Res ε α) (r : Res ε' β) : Prop := ∀ p, x = .error (.panic p) → r = .error (.panic p)

theorem unwinds_mapError (result : Except ε α) (r : Res ε' β) :
    Unwinds (Except.mapError Fault.err result) r := by
  intro p hp
  cases result with
  | error e => cases hp
  | ok a => cases hp

/-- An error of the one call is an error of the other. -/
def Passes (x : Res ε α) (r : Res ε β) : Prop := ∀ e, x = .error e → r = .error e

theorem Passes.unwinds {x : Res ε α} {r : Res ε β} (h : Passes x r) : Unwinds x r :=
  fun p hp => h (.panic p) hp

/-- A call whose value is put into another. -/
theorem bind_pure_cases {m : Io W S ε α} {f : α → β} {w : W} {s s' : S} {r : Res ε β}
    (h : (m >>= fun a => pure (f a)) w s = some (s', r)) : ∃ x, m w s = some (s', x) ∧ Passes x r := by
  rcases (bind_eq_some _ _ _ _ _ _).mp h with ⟨e, hm, rfl⟩ | ⟨t, a, hm, h⟩
  · refine ⟨_, hm, fun e' he => ?_⟩
    cases he
    rfl
  · cases h
    refine ⟨_, hm, fun e he => ?_⟩
    cases he

/-- A call whose outcome is only passed on. -/
theorem attempt_return_cases {m : Io W S ε α} {f : Except ε α → β} {w : W} {s s' : S}
    {r : Res ε' β} (h : (attempt m >>= fun result => pure (f result)) w s = some (s', r)) :
    ∃ x, m w s = some (s', x) ∧ Unwinds x r := by
  rcases attempt_bind_cases h with ⟨p, hm, rfl⟩ | ⟨t, result, hm, h⟩
  · refine ⟨_, hm, fun p' hp => ?_⟩
    cases hp
    rfl
  · cases h
    exact ⟨_, hm, unwinds_mapError result _⟩

/-- No error comes out of the call, though it may panic. -/
def Infallible (m : Io W S ε α) : Prop := ∀ w s s' e, m w s ≠ some (s', .error (.err e))

theorem infallible_pure (a : α) : Infallible (pure a : Io W S ε α) := by
  intro w s s' e h
  cases h

theorem infallible_ask (f : W → S → α) : Infallible (ask f : Io W S ε α) := by
  intro w s s' e h
  cases h

theorem infallible_modify (f : S → S) : Infallible (modify f : Io W S ε Unit) := by
  intro w s s' e h
  cases h

theorem infallible_bind {m : Io W S ε α} {f : α → Io W S ε β} (hm : Infallible m)
    (hf : ∀ a, Infallible (f a)) : Infallible (m >>= f) := by
  intro w s s' e h
  rcases (bind_eq_error m f w s s' _).mp h with herror | ⟨t, a, -, hrest⟩
  · exact hm w s s' e herror
  · exact hf a w t s' e hrest

theorem infallible_attempt (m : Io W S ε α) :
    Infallible (attempt m : Io W S ε' (Except ε α)) := by
  intro w s s' e h
  obtain ⟨⟨t, x⟩, -, hx⟩ := Option.map_eq_some_iff.mp h
  rcases x with (e' | p) | a <;> cases hx

theorem infallible_forEach {f : α → Io W S ε Unit} (hf : ∀ a, Infallible (f a)) (l : List α) :
    Infallible (forEach f l) := by
  induction l with
  | nil => exact infallible_pure ()
  | cons a rest ih => exact infallible_bind (hf a) fun _ => ih

theorem Infallible.ok_of_returned {m : Io W S ε α} (hm : Infallible m) {w : W} {s s' : S}
    {r : Res ε α} (h : m w s = some (s', r)) (hr : r.Returned) : ∃ a, r = .ok a := by
  rcases r with (e | p) | a
  · exact absurd h (hm w s s' e)
  · exact absurd rfl (hr p)
  · exact ⟨a, rfl⟩

theorem Unwinds.returned {x : Res ε α} {r : Res ε' β} (h : Unwinds x r) (hr : r.Returned) :
    x.Returned := fun p hp => hr p (h p hp)

/-- A loop that skips some elements runs over the others. -/
theorem forEach_skip (skip : α → Bool) (f : α → Io W S ε Unit) (l : List α) :
    forEach (fun a => if skip a then pure () else f a) l =
      forEach f (l.filter fun a => !skip a) := by
  induction l with
  | nil => rfl
  | cons a l ih =>
    rw [forEach, ih]
    cases h : skip a with
    | false => simp [h, forEach]
    | true =>
      simp only [if_true, List.filter_cons, h, Bool.not_true, Bool.false_eq_true, if_false]
      rfl

/-- However the call ends, the state it leaves is `R`-related to the one it found. -/
def Keeps (R : S → S → Prop) (m : Io W S ε α) : Prop :=
  ∀ w s s' r, m w s = some (s', r) → R s s'

section Keeps

variable {R : S → S → Prop} [IsPreorder S R]

theorem keeps_pure (a : α) : Keeps R (pure a : Io W S ε α) := by
  intro w s s' r h
  cases h
  exact refl s

theorem keeps_read : Keeps R (read : Io W S ε S) := by
  intro w s s' r h
  cases h
  exact refl s

theorem keeps_ask (f : W → S → α) : Keeps R (ask f : Io W S ε α) := by
  intro w s s' r h
  cases h
  exact refl s

theorem keeps_lift (r : Res ε α) : Keeps R (lift r : Io W S ε α) := by
  intro w s s' r' h
  cases h
  exact refl s

theorem keeps_await (r : Option (Res ε α)) : Keeps R (await r : Io W S ε α) := by
  intro w s s' r' h
  obtain ⟨x, -, hx⟩ := Option.map_eq_some_iff.mp h
  cases hx
  exact refl s

theorem keeps_bind {m : Io W S ε α} {f : α → Io W S ε β} (hm : Keeps R m)
    (hf : ∀ a, Keeps R (f a)) : Keeps R (m >>= f) := by
  intro w s s' r h
  rw [bind_apply] at h
  rcases hcase : m w s with - | ⟨t, e | a⟩
  · rw [hcase] at h
    cases h
  · rw [hcase] at h
    cases h
    exact hm w s _ _ hcase
  · rw [hcase] at h
    exact IsTrans.trans _ _ _ (hm w s t _ hcase) (hf a w t s' r h)

theorem keeps_forEach {f : α → Io W S ε Unit} (l : List α) (hf : ∀ a ∈ l, Keeps R (f a)) :
    Keeps R (forEach f l) := by
  induction l with
  | nil => exact keeps_pure ()
  | cons a rest ih =>
    obtain ⟨ha, hrest⟩ := List.forall_mem_cons.mp hf
    exact keeps_bind ha fun _ => ih hrest

end Keeps

theorem keeps_modify {R : S → S → Prop} (f : S → S) (h : ∀ s, R s (f s)) :
    Keeps R (modify f : Io W S ε Unit) := by
  intro w s s' r heq
  cases heq
  exact h s

theorem keeps_mapErr {R : S → S → Prop} {m : Io W S ε α} (g : ε → ε') (hm : Keeps R m) :
    Keeps R (mapErr g m) := by
  intro w s s' r h
  obtain ⟨⟨t, x⟩, hx, he⟩ := Option.map_eq_some_iff.mp h
  cases he
  exact hm w s _ x hx

theorem keeps_attempt {R : S → S → Prop} {m : Io W S ε α} (hm : Keeps R m) :
    Keeps R (attempt m : Io W S ε' (Except ε α)) := by
  intro w s s' r h
  obtain ⟨x, hx⟩ := attempt_eq_some h
  exact hm w s s' x hx

/-- In the world `w`, a call made under `P` leaves `Q` with its value if it succeeds, and `E` if it
does not. -/
structure Triple (w : W) (P : S → Prop) (m : Io W S ε α) (Q : α → S → Prop) (E : S → Prop) :
    Prop where
  ok : ∀ s s' a, P s → m w s = some (s', .ok a) → Q a s'
  error : ∀ s s' e, P s → m w s = some (s', .error e) → E s'

/-- However the call ends in the world `w`, it leaves `I` as it found it. -/
abbrev Maintains (w : W) (I : S → Prop) (m : Io W S ε α) : Prop := Triple w I m (fun _ => I) I

section Triple

variable {w : W} {P E I : S → Prop} {Q : α → S → Prop}

/-- Where the two postconditions are one, the end of the call does not matter. -/
theorem triple_iff (m : Io W S ε α) :
    Triple w P m (fun _ => E) E ↔ ∀ s s' r, P s → m w s = some (s', r) → E s' := by
  constructor
  · intro h s s' r hs heq
    cases r with
    | ok a => exact h.ok s s' a hs heq
    | error e => exact h.error s s' e hs heq
  · intro h
    exact ⟨fun s s' a hs heq => h s s' _ hs heq, fun s s' e hs heq => h s s' _ hs heq⟩

theorem Triple.leaves {m : Io W S ε α} (hm : Triple w P m (fun _ => E) E) {s s' : S} {r : Res ε α}
    (hs : P s) (h : m w s = some (s', r)) : E s' := (triple_iff m).mp hm s s' r hs h

theorem Triple.of_pre {P' : S → Prop} {m : Io W S ε α} (hm : Triple w P' m Q E)
    (h : ∀ s, P s → P' s) : Triple w P m Q E :=
  ⟨fun s s' a hs => hm.ok s s' a (h s hs), fun s s' e hs => hm.error s s' e (h s hs)⟩

/-- What every call within a relation keeps, a call within the relation keeps in any world. -/
theorem maintains_of_keeps {R : S → S → Prop} {m : Io W S ε α} (hm : Keeps R m)
    (hI : ∀ s s', R s s' → I s → I s') : Maintains w I m :=
  (triple_iff m).mpr fun s s' r hs heq => hI s s' (hm w s s' r heq) hs

theorem triple_pure (a : α) (h : ∀ s, P s → Q a s) : Triple w P (pure a : Io W S ε α) Q E := by
  refine ⟨fun s s' b hs heq => ?_, fun s s' e hs heq => ?_⟩
  · cases heq
    exact h s hs
  · cases heq

theorem triple_bind {M : β → S → Prop} {m : Io W S ε β} {f : β → Io W S ε α}
    (hm : Triple w P m M E) (hf : ∀ b, Triple w (M b) (f b) Q E) : Triple w P (m >>= f) Q E := by
  refine ⟨fun s s' a hs heq => ?_, fun s s' e hs heq => ?_⟩
  · obtain ⟨t, b, hfirst, hrest⟩ := (bind_eq_ok m f w s s' a).mp heq
    exact (hf b).ok t s' a (hm.ok s t b hs hfirst) hrest
  · rcases (bind_eq_error m f w s s' e).mp heq with herr | ⟨t, b, hfirst, hrest⟩
    · exact hm.error s s' e hs herr
    · exact (hf b).error t s' e (hm.ok s t b hs hfirst) hrest

theorem triple_mapErr {m : Io W S ε α} (g : ε → ε') (hm : Triple w P m Q E) :
    Triple w P (mapErr g m) Q E := by
  refine ⟨fun s s' a hs heq => hm.ok s s' a hs ((mapErr_eq_ok g m w s s' a).mp heq),
    fun s s' e hs heq => ?_⟩
  obtain ⟨⟨t, r⟩, hr, he⟩ := Option.map_eq_some_iff.mp heq
  rcases r with (e' | p) | a
  · cases he
    exact hm.error s _ _ hs hr
  · cases he
    exact hm.error s _ _ hs hr
  · cases he

theorem maintains_attempt {m : Io W S ε α} (hm : Maintains w I m) :
    Maintains w I (attempt m : Io W S ε' (Except ε α)) := by
  refine (triple_iff _).mpr fun s s' r hs heq => ?_
  obtain ⟨r', hr'⟩ := attempt_eq_some heq
  exact (triple_iff m).mp hm s s' r' hs hr'

theorem maintains_forEach {f : α → Io W S ε Unit} (l : List α) (hf : ∀ a ∈ l, Maintains w I (f a)) :
    Maintains w I (forEach f l) := by
  induction l with
  | nil => exact triple_pure () fun _ hs => hs
  | cons a rest ih =>
    obtain ⟨ha, hrest⟩ := List.forall_mem_cons.mp hf
    exact triple_bind ha fun _ => ih hrest

end Triple

/-- The call returns, in a state `R`-related to the one it found and with a result in `P`. -/
def Ends (w : W) (R : S → S → Prop) (P : Res ε α → Prop) (m : Io W S ε α) (s : S) : Prop :=
  ∃ s' r, m w s = some (s', r) ∧ R s s' ∧ P r

theorem Ends.imp {w : W} {s : S} {R : S → S → Prop} {P Q : Res ε α → Prop} {m : Io W S ε α}
    (h : Ends w R P m s) (hpq : ∀ r, P r → Q r) : Ends w R Q m s := by
  obtain ⟨s', r, heq, hR, hP⟩ := h
  exact ⟨s', r, heq, hR, hpq r hP⟩

section Ends

variable {w : W} {s : S} {R : S → S → Prop} [IsPreorder S R] {P : Res ε α → Prop}

theorem ends_pure (a : α) (h : P (.ok a)) : Ends w R P (pure a) s :=
  ⟨s, .ok a, rfl, refl s, h⟩

theorem ends_lift (r : Res ε α) (h : P r) : Ends w R P (lift r) s := ⟨s, r, rfl, refl s, h⟩

/-- The second call is made only if the first succeeds. -/
theorem ends_bind {P : Res ε β → Prop} {Q : Res ε α → Prop} {m : Io W S ε α}
    {f : α → Io W S ε β} (hm : Ends w R Q m s)
    (hok : ∀ s' a, R s s' → Q (.ok a) → Ends w R P (f a) s')
    (herr : ∀ e, Q (.error e) → P (.error e)) : Ends w R P (m >>= f) s := by
  obtain ⟨t, e | a, heq, hR, hQ⟩ := hm
  · exact ⟨t, .error e, bind_of_error heq f, hR, herr e hQ⟩
  · obtain ⟨s', r, heq', hR', hP⟩ := hok t a hR hQ
    exact ⟨s', r, (bind_of_ok heq f).trans heq', IsTrans.trans _ _ _ hR hR', hP⟩

theorem ends_bind_of_ok {P : Res ε β → Prop} {A : α → Prop} {m : Io W S ε α}
    {f : α → Io W S ε β} (hm : Ends w R (fun r => ∃ a, r = .ok a ∧ A a) m s)
    (hok : ∀ s' a, R s s' → A a → Ends w R P (f a) s') : Ends w R P (m >>= f) s := by
  refine ends_bind hm ?_ ?_
  · intro s' a hR hA
    obtain ⟨b, hab, hA⟩ := hA
    cases hab
    exact hok s' a hR hA
  · intro e he
    obtain ⟨a, hea, -⟩ := he
    cases hea

end Ends

theorem ends_lift_bind {w : W} {s : S} {R : S → S → Prop} {P : Res ε β → Prop} {r : Res ε α}
    {f : α → Io W S ε β} (a : α) (hr : r = .ok a) (h : Ends w R P (f a) s) :
    Ends w R P (lift r >>= f) s := by
  subst hr
  exact h

theorem ends_ask_bind {w : W} {s : S} {R : S → S → Prop} {P : Res ε β → Prop} {g : W → S → α}
    {f : α → Io W S ε β} (h : Ends w R P (f (g w s)) s) : Ends w R P (ask g >>= f) s := h

theorem ends_mapErr {w : W} {s : S} {R : S → S → Prop} {P : Res ε' α → Prop} {m : Io W S ε α}
    (f : ε → ε') (h : Ends w R (fun r => P (r.mapErr f)) m s) : Ends w R P (mapErr f m) s := by
  obtain ⟨s', r, heq, hR, hP⟩ := h
  exact ⟨s', r.mapErr f, by rw [mapErr, heq]; rfl, hR, hP⟩

end Io

end Rust

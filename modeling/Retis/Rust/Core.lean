import Mathlib.Data.Nat.Defs
import Mathlib.Tactic.Ring
import Mathlib.Data.List.Forall2

/-!
# The Rust runtime the model runs in

A Rust function of the repository returning `anyhow::Result<T>` is modelled as
`Res T`, that is `Except Fault T`. The three ways a call stops short of a value
are kept apart: an error the caller receives through `?` or `bail!`, a panic
(slice index out of range, arithmetic overflow in a build with overflow checks,
`remove` on an empty vector), and the model's own bound on loops over the type
graph (`outOfFuel`, see `Retis.Btf`).

Integers keep the code's widths (`UInt8`, `UInt16`, `UInt32`, `UInt64`). Checked
arithmetic panics where a build with overflow checks panics; `try_from`
conversions fail with the error `TryFromIntError` displays.
-/

namespace Retis

/-- How a Rust call of the model stops without a value. -/
inductive Fault where
  /-- An `anyhow` error returned to the caller. -/
  | error (msg : String)
  /-- A panic; the text is the one the Rust runtime prints. -/
  | panic (msg : String)
  /-- A loop over the type graph needed more iterations than the fuel given. -/
  | outOfFuel
  deriving DecidableEq, Repr

/-- A Rust computation returning `α` or stopping with a `Fault`. -/
abbrev Res := Except Fault

/-- `bail!(msg)`. -/
def bail {α : Type} (msg : String) : Res α := throw (.error msg)

/-- The call returned, with a value or with an error: it did not panic and did
not run out of fuel. -/
def Returns {α : Type} : Res α → Prop
  | .ok _ => True
  | .error (.error _) => True
  | .error _ => False

instance {α : Type} (r : Res α) : Decidable (Returns r) := by
  unfold Returns; split <;> infer_instance

/-- A call made of steps that return, each after the one before returned,
returns. -/
theorem returns_bind {α β : Type} {x : Res α} {f : α → Res β} (hx : Returns x)
    (hf : ∀ a, x = .ok a → Returns (f a)) : Returns (x >>= f) := by
  cases x with
  | ok a => exact hf a rfl
  | error e =>
    show Returns (Except.error e : Res β)
    cases e <;> exact hx

@[simp] theorem bail_ne_ok {α : Type} (msg : String) (a : α) : bail msg ≠ .ok a :=
  fun h => nomatch h

@[simp] theorem bind_eq_ok {ε α β : Type} {x : Except ε α} {f : α → Except ε β} {b : β} :
    x >>= f = .ok b ↔ ∃ a, x = .ok a ∧ f a = .ok b := by
  cases x <;> simp [bind, Except.bind]

theorem bind_eq_error {ε α β : Type} {x : Except ε α} {f : α → Except ε β} {e : ε} :
    x >>= f = .error e ↔ x = .error e ∨ ∃ a, x = .ok a ∧ f a = .error e := by
  cases x <;> simp [bind, Except.bind]

@[simp] theorem pure_eq_ok {ε α : Type} {a b : α} : (pure a : Except ε α) = .ok b ↔ a = b := by
  simp [pure, Except.pure]

@[simp] theorem ok_eq_pure {ε α : Type} {a b : α} : Except.ok b = (pure a : Except ε α) ↔ b = a := by
  simp [pure, Except.pure]

@[simp] theorem except_map_eq_ok {ε α β : Type} {f : α → β} {x : Except ε α} {b : β} :
    x.map f = .ok b ↔ ∃ a, x = .ok a ∧ f a = b := by
  cases x <;> simp [Except.map]

@[simp] theorem map_eq_ok {ε α β : Type} {f : α → β} {x : Except ε α} {b : β} :
    f <$> x = .ok b ↔ ∃ a, x = .ok a ∧ f a = b := by
  cases x <;> simp [Functor.map, Except.map]

@[simp] theorem throw_ne_ok {ε α : Type} {e : ε} {a : α} : (throw e : Except ε α) ≠ .ok a :=
  fun h => nomatch h

theorem ite_throw_eq_ok {ε α : Type} {p : Prop} [Decidable p] {x : Except ε α} {e : ε} {b : α} :
    (if p then x else throw e) = .ok b ↔ p ∧ x = .ok b := by
  split <;> simp [*]

/-- `collect::<Result<Vec<_>>>()` of a map succeeds when every element does. -/
theorem mapM_eq_ok {α β : Type} {f : α → Res β} {xs : List α} {ys : List β} :
    xs.mapM f = .ok ys ↔ List.Forall₂ (fun x y => f x = .ok y) xs ys := by
  induction xs generalizing ys with
  | nil =>
    simp only [List.mapM_nil, pure_eq_ok, List.forall₂_nil_left_iff]
    exact eq_comm
  | cons x xs ih =>
    simp only [List.mapM_cons, bind_eq_ok, pure_eq_ok, ih, List.forall₂_cons_left_iff]
    constructor
    · rintro ⟨y, hy, ys', hys, rfl⟩; exact ⟨y, ys', hy, hys, rfl⟩
    · rintro ⟨y, ys', hy, hys, rfl⟩; exact ⟨y, hy, ys', hys, rfl⟩

/-- `iter().find(p)` with a fallible test: the search returns `a` exactly when
the test failed, without error, on everything before `a` and held of `a`. -/
theorem findM?_eq_ok_some {α : Type} {p : α → Res Bool} {l : List α} {a : α} :
    l.findM? p = .ok (some a) ↔
      ∃ pre post, l = pre ++ a :: post ∧ (∀ x ∈ pre, p x = .ok false) ∧ p a = .ok true := by
  induction l with
  | nil => simp [List.findM?]
  | cons b l ih =>
    simp only [List.findM?, bind_eq_ok]
    constructor
    · rintro ⟨r, hr, h⟩
      cases r
      · obtain ⟨pre, post, rfl, hpre, ha⟩ := ih.mp h
        exact ⟨b :: pre, post, rfl, by simpa [hr] using hpre, ha⟩
      · cases h
        exact ⟨[], l, rfl, by simp, hr⟩
    · rintro ⟨_ | ⟨c, pre⟩, post, hl, hpre, ha⟩
      · cases hl
        exact ⟨true, ha, rfl⟩
      · cases hl
        exact ⟨false, hpre _ (List.mem_cons_self _ _),
          ih.mpr ⟨pre, post, rfl, fun x hx => hpre x (List.mem_cons_of_mem _ hx), ha⟩⟩

/-! ## Checked arithmetic and conversions -/

/-- The text of a panic on an overflowing `+`. -/
def addOverflow : Fault := .panic "attempt to add with overflow"

/-- The text of a panic on an overflowing `-`. -/
def subOverflow : Fault := .panic "attempt to subtract with overflow"

/-- `a + b` on `u32` with overflow checks. -/
def addU32 (a b : UInt32) : Res UInt32 :=
  if a.toNat + b.toNat < UInt32.size then pure (a + b) else throw addOverflow

/-- `a + b` on `u8` with overflow checks. -/
def addU8 (a b : UInt8) : Res UInt8 :=
  if a.toNat + b.toNat < UInt8.size then pure (a + b) else throw addOverflow

/-- `a + b` on `u64` with overflow checks. -/
def addU64 (a b : UInt64) : Res UInt64 :=
  if a.toNat + b.toNat < UInt64.size then pure (a + b) else throw addOverflow

/-- `a - b` on `u64` with overflow checks. -/
def subU64 (a b : UInt64) : Res UInt64 :=
  if b.toNat ≤ a.toNat then pure (a - b) else throw subOverflow

/-- What `TryFromIntError` displays. -/
def tryFromIntError : Fault := .error "out of range integral type conversion attempted"

/-- `u16::try_from(x)` for `x : u32`. -/
def u16TryFrom (x : UInt32) : Res UInt16 :=
  if x.toNat < UInt16.size then pure (UInt16.ofNat x.toNat) else throw tryFromIntError

/-- `u8::try_from(x)` for `x : u32`. -/
def u8TryFrom (x : UInt32) : Res UInt8 :=
  if x.toNat < UInt8.size then pure (UInt8.ofNat x.toNat) else throw tryFromIntError

/-- A checked operation returns `c` exactly when its check holds and `c` has
the value the unchecked one computes, compared through the injective `val`. -/
theorem checked_eq_ok {α : Type} {p : Prop} [Decidable p] {a c : α} {e : Fault}
    {val : α → Nat} (hval : ∀ x y, val x = val y → x = y) {n : Nat} (ha : p → val a = n) :
    (if p then pure a else throw e : Res α) = .ok c ↔ p ∧ val c = n := by
  by_cases hp : p
  · rw [if_pos hp, pure_eq_ok, and_iff_right hp]
    exact ⟨fun h => h ▸ ha hp, fun h => hval _ _ ((ha hp).trans h.symm)⟩
  · simp [hp]

theorem addU32_eq_ok {a b c : UInt32} :
    addU32 a b = .ok c ↔ a.toNat + b.toNat < UInt32.size ∧ c.toNat = a.toNat + b.toNat :=
  checked_eq_ok (fun _ _ => UInt32.toNat.inj) Nat.mod_eq_of_lt

theorem addU8_eq_ok {a b c : UInt8} :
    addU8 a b = .ok c ↔ a.toNat + b.toNat < UInt8.size ∧ c.toNat = a.toNat + b.toNat :=
  checked_eq_ok (fun _ _ => UInt8.toNat.inj) Nat.mod_eq_of_lt

theorem addU64_eq_ok {a b c : UInt64} :
    addU64 a b = .ok c ↔ a.toNat + b.toNat < UInt64.size ∧ c.toNat = a.toNat + b.toNat :=
  checked_eq_ok (fun _ _ => UInt64.toNat.inj) Nat.mod_eq_of_lt

theorem subU64_eq_ok {a b c : UInt64} :
    subU64 a b = .ok c ↔ b.toNat ≤ a.toNat ∧ c.toNat = a.toNat - b.toNat :=
  checked_eq_ok (fun _ _ => UInt64.toNat.inj) (UInt64.toNat_sub_of_le _ _)

/-- `==` on `u64` compares the values. -/
theorem u64_beq_eq_decide (x y : UInt64) : (x == y) = decide (x.toNat = y.toNat) := by
  rw [Bool.eq_iff_iff, beq_iff_eq, decide_eq_true_eq]
  exact ⟨congrArg _, UInt64.toNat.inj⟩

theorem u16TryFrom_eq_ok {x : UInt32} {y : UInt16} :
    u16TryFrom x = .ok y ↔ x.toNat < UInt16.size ∧ y.toNat = x.toNat :=
  checked_eq_ok (fun _ _ => UInt16.toNat.inj) UInt16.toNat_ofNat_of_lt

theorem u8TryFrom_eq_ok {x : UInt32} {y : UInt8} :
    u8TryFrom x = .ok y ↔ x.toNat < UInt8.size ∧ y.toNat = x.toNat :=
  checked_eq_ok (fun _ _ => UInt8.toNat.inj) UInt8.toNat_ofNat_of_lt

/-- A fact about every byte follows from its 256 cases, which `decide` checks. -/
theorem forall_uint8 {P : UInt8 → Prop} (h : ∀ n : Fin 256, P (UInt8.ofNat n)) (x : UInt8) :
    P x := by
  have hx : UInt8.ofNat x.toNat = x := UInt8.toNat.inj (UInt8.toNat_ofNat_of_lt x.toNat_lt_size)
  exact hx ▸ h ⟨x.toNat, x.toNat_lt_size⟩

end Retis

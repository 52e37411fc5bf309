import Mathlib.Data.UInt
import Mathlib.Order.Basic

/-!
# Parameters, faults and machine integers

What every other module of the model uses.

* `pageSize`, `tableMaxPages`: `parameters.h`.
* `Fault`: every way a call can end other than by returning.  A run of the model that returns
  has met none of them, so "no assertion fails" and "memory is accessed in bounds" are both
  statements that a result is `Except.ok`.
* `toInt`: the conversion of an unsigned value to `int`.
* The order on `uint32_t` keys.
-/

namespace DbToy

/-- `PAGE_SIZE`. -/
def pageSize : ℕ := 4096

/-- `TABLE_MAX_PAGES`. -/
def tableMaxPages : ℕ := 1000

/-- How a call ends when it does not return. -/
inductive Fault where
  /-- `assert(cond)` with a false condition: the process aborts. -/
  | assertFailed (cond : String)
  /-- `throw std::runtime_error(what)`. -/
  | thrown (what : String)
  /-- `exit(EXIT_FAILURE)` after the message was printed. -/
  | exitFailure (message : String)
  /-- A load or store that leaves the `PAGE_SIZE` bytes of its page. -/
  | outsidePage (offset : ℕ)
  /-- An index into a `pages` array that is not below `TABLE_MAX_PAGES`. -/
  | pageIndex (index : ℕ)
  /-- A store or load that leaves its array of characters. -/
  | outsideArray
  /-- A null pointer is followed. -/
  | nullPointer
  /-- An integer division by zero. -/
  | divisionByZero
  /-- An `int` that would leave its range. -/
  | intOverflow
  /-- A loop or a recursion that never ends. -/
  | diverges
  deriving DecidableEq, Repr

/-- `assert(cond)`; `text` is the condition as the source has it. -/
def assertThat (cond : Prop) [Decidable cond] (text : String) : Except Fault Unit :=
  if cond then .ok () else .error (.assertFailed text)

@[simp] lemma assertThat_of {cond : Prop} [Decidable cond] (h : cond) (text : String) :
    assertThat cond text = .ok () := if_pos h

@[simp] lemma assertThat_of_not {cond : Prop} [Decidable cond] (h : ¬cond) (text : String) :
    assertThat cond text = .error (.assertFailed text) := if_neg h

lemma assertThat_eq_ok {cond : Prop} [Decidable cond] {text : String} {u : Unit} :
    assertThat cond text = .ok u ↔ cond := by
  by_cases h : cond <;> simp [h]

/-! ## Results

The two equations by which a `do` block over results is evaluated. -/

@[simp] lemma ok_bind {ε α β : Type} (a : α) (f : α → Except ε β) :
    (Except.ok a >>= f) = f a := rfl

@[simp] lemma error_bind {ε α β : Type} (e : ε) (f : α → Except ε β) :
    ((Except.error e : Except ε α) >>= f) = .error e := rfl

@[simp] lemma map_ok {ε α β : Type} (f : α → β) (a : α) :
    (Except.ok a : Except ε α).map f = .ok (f a) := rfl

@[simp] lemma map_error {ε α β : Type} (f : α → β) (e : ε) :
    (Except.error e : Except ε α).map f = .error e := rfl

lemma bind_eq_ok {ε α β : Type} {x : Except ε α} {f : α → Except ε β} {b : β}
    (h : (x >>= f) = .ok b) : ∃ a, x = .ok a ∧ f a = .ok b := by
  cases x with
  | error e => exact absurd h (by simp)
  | ok a => exact ⟨a, rfl, h⟩

/-- A sequence succeeds exactly if both its parts do. -/
lemma exists_bind_eq_ok {ε α β : Type} {x : Except ε α} {f : α → Except ε β} :
    (∃ b, (x >>= f) = .ok b) ↔ ∃ a, x = .ok a ∧ ∃ b, f a = .ok b := by
  cases x with
  | error e => simp
  | ok a => simp

/-! ## Machine integers -/

/-- An unsigned value converted to a 32 bit `int`. -/
def toInt (x : ℕ) : ℤ := if x % 2 ^ 32 < 2 ^ 31 then x % 2 ^ 32 else x % 2 ^ 32 - 2 ^ 32

lemma toInt_of_lt {x : ℕ} (h : x < 2 ^ 31) : toInt x = x := by
  have hm : x % 2 ^ 32 = x := Nat.mod_eq_of_lt (by omega)
  rw [toInt, if_pos (by omega)]
  exact_mod_cast hm

lemma toInt_of_nonneg {x : ℕ} (hlt : x < 2 ^ 32) (h : 0 ≤ toInt x) : toInt x = x := by
  refine toInt_of_lt ?_
  rw [toInt] at h
  split_ifs at h with hm <;> omega

/-- Keys are ordered as unsigned numbers. -/
instance linearOrderUInt32 : LinearOrder UInt32 where
  le_refl a := UInt32.le_refl a
  le_trans _ _ _ := UInt32.le_trans
  le_antisymm _ _ := UInt32.le_antisymm
  le_total := UInt32.le_total
  lt_iff_le_not_ge a b := by
    simp only [UInt32.lt_iff_toNat_lt, UInt32.le_iff_toNat_le]; omega
  toDecidableLE := inferInstance
  toDecidableLT := inferInstance
  toDecidableEq := inferInstance
  min a b := if a ≤ b then a else b
  max a b := if a ≤ b then b else a

instance lawfulBEqUInt32 : LawfulBEq UInt32 := inferInstance

/-- `UINT32_MAX`. -/
def uint32Max : UInt32 := 4294967295

lemma le_uint32Max (k : UInt32) : k ≤ uint32Max := by
  have hlt := k.toNat_lt
  have hmax : uint32Max.toNat = 4294967295 := rfl
  rw [UInt32.le_iff_toNat_le]
  omega

lemma zero_le_uint32 (k : UInt32) : 0 ≤ k := by
  rw [UInt32.le_iff_toNat_le]
  exact Nat.zero_le _

end DbToy

import Scriptlet.Proofs.DoubleSums
import Scriptlet.Value

namespace Scriptlet.Value

/-- Whether a value refers to something in the store. -/
def isReference : Value → Bool
  | object _ | array _ | structType _ | native _ | function _ => true
  | null | number _ | text _ | boolean _ => false

/-- Whether a value can be equal to a number. -/
def isNumeric (v : Value) : Bool :=
  v.isArithmetic || v.kind == .text

end Scriptlet.Value

namespace Scriptlet.Proofs.Comparisons
open Value DoubleSums

/-- Whether two values are compared as numbers for equality. Two texts are not. -/
def Numeric (a b : Value) : Prop :=
  a.isNumeric = true ∧ b.isNumeric = true ∧ (a.isArithmetic = true ∨ b.isArithmetic = true)

/-- The values that count as equal. Null equals null only, and of two references only the same. -/
inductive Equal : Value → Value → Prop where
  | null : Equal null null
  | text (s : String) : Equal (text s) (text s)
  | number {a b : Value} (hnumeric : Numeric a b) (h : (a.toNumber == b.toNumber) = true) : Equal a b
  | same {a : Value} (ha : a.isReference = true) : Equal a a

/-- The values that come before others. Two texts go by their characters, all else by number. -/
inductive Before : Value → Value → Prop where
  | text {s t : String} (h : s < t) : Before (text s) (text t)
  | number {a b : Value} (hkind : a.kind ≠ .text ∨ b.kind ≠ .text) (h : a.toNumber < b.toNumber) : Before a b

variable {a b : Value}

section Numbers

variable {x y : Float}

theorem float_beq_symm (h : (x == y) = true) : (y == x) = true := by
  rw [beq_iff] at h ⊢
  exact ⟨h.2.1, h.1, h.2.2.symm⟩

theorem float_lt_asymm (h : x < y) : ¬y < x := by
  rw [lt_iff] at h ⊢
  omega

theorem float_not_lt_of_beq (h : (x == y) = true) : ¬x < y := by
  rw [beq_iff] at h
  rw [lt_iff]
  omega

theorem float_lt_irrefl (x : Float) : ¬x < x := by
  intro h
  exact float_lt_asymm h h

end Numbers

section Equality

theorem Numeric.symm (h : Numeric a b) : Numeric b a :=
  ⟨h.2.1, h.1, h.2.2.symm⟩

theorem looselyEquals_numeric (h : Numeric a b) : a.looselyEquals b = (a.toNumber == b.toNumber) := by
  obtain ⟨ha, hb, hone⟩ := h
  cases a with
  | number x => cases b <;> simp_all [looselyEquals, isNumeric, isArithmetic, kind]
  | boolean p => cases b <;> simp_all [looselyEquals, isNumeric, isArithmetic, kind]
  | text s => cases b <;> simp_all [looselyEquals, isNumeric, isArithmetic, kind]
  | _ => simp [isNumeric, isArithmetic, kind] at ha

/-- Where values are not compared as numbers, only one and the same value is equal to a value. -/
theorem eq_of_looselyEquals (h : a.looselyEquals b = true) (hnumeric : ¬Numeric a b) : a = b := by
  cases a <;> cases b <;> simp_all [looselyEquals, Numeric, isNumeric, isArithmetic, kind]

theorem looselyEquals_iff : a.looselyEquals b = true ↔ Equal a b := by
  constructor
  · intro h
    by_cases hnumeric : Numeric a b
    · rw [looselyEquals_numeric hnumeric] at h
      exact .number hnumeric h
    · obtain rfl := eq_of_looselyEquals h hnumeric
      cases a with
      | null => exact .null
      | text s => exact .text s
      | number x => exact absurd ⟨rfl, rfl, .inl rfl⟩ hnumeric
      | boolean p => exact absurd ⟨rfl, rfl, .inl rfl⟩ hnumeric
      | _ => exact .same rfl
  · intro h
    cases h with
    | null => rfl
    | text s => simp [looselyEquals]
    | number hnumeric h => rw [looselyEquals_numeric hnumeric, h]
    | same ha => cases a <;> simp_all [looselyEquals, isReference]

theorem Equal.symm (h : Equal a b) : Equal b a := by
  cases h with
  | null => exact .null
  | text s => exact .text s
  | number hnumeric h => exact .number hnumeric.symm (float_beq_symm h)
  | same ha => exact .same ha

theorem looselyEquals_comm (a b : Value) : a.looselyEquals b = b.looselyEquals a := by
  rw [Bool.eq_iff_iff, looselyEquals_iff, looselyEquals_iff]
  exact ⟨Equal.symm, Equal.symm⟩

end Equality

section Order

theorem lessThan_number (hkind : a.kind ≠ .text ∨ b.kind ≠ .text) :
    a.lessThan b = decide (a.toNumber < b.toNumber) := by
  cases a with
  | text s =>
    cases b with
    | text t => simp [kind] at hkind
    | _ => rfl
  | _ => rfl

theorem lessThan_iff : a.lessThan b = true ↔ Before a b := by
  constructor
  · intro h
    by_cases hkind : a.kind ≠ .text ∨ b.kind ≠ .text
    · rw [lessThan_number hkind] at h
      exact .number hkind (of_decide_eq_true h)
    · cases a with
      | text s =>
        cases b with
        | text t => exact .text (of_decide_eq_true h)
        | _ => simp [kind] at hkind
      | _ => simp [kind] at hkind
  · intro h
    cases h with
    | text h => exact decide_eq_true h
    | number hkind h => rw [lessThan_number hkind, decide_eq_true h]

theorem Before.asymm (h : Before a b) : ¬Before b a := by
  intro hback
  cases h with
  | text h =>
    cases hback with
    | text hback => exact String.lt_asymm h hback
    | number hkind => simp [kind] at hkind
  | number hkind h =>
    cases hback with
    | text => simp [kind] at hkind
    | number _ hback => exact float_lt_asymm h hback

/-- A value does not come before one that equals it. -/
theorem Equal.not_before (h : Equal a b) : ¬Before a b := by
  intro hbefore
  cases h with
  | null =>
    cases hbefore with
    | number _ hlt => exact float_lt_irrefl _ hlt
  | text s =>
    cases hbefore with
    | text hlt => exact String.lt_irrefl s hlt
    | number hkind => simp [kind] at hkind
  | number hnumeric heq =>
    cases hbefore with
    | text => simp [Numeric, isArithmetic] at hnumeric
    | number _ hlt => exact float_not_lt_of_beq heq hlt
  | same ha =>
    cases hbefore with
    | text => cases ha
    | number _ hlt => exact float_lt_irrefl _ hlt

end Order

/-- Comparisons agree with each other on all values. Turned round, `<` is `>` and `<=` is `>=`, equality is
the same both ways and `!=` is its negation; and of `<`, `==` and `>` at most one holds. -/
theorem comparisons_agree (a b : Value) :
    Value.compare .less false a b = Value.compare .greater false b a ∧
    Value.compare .less true a b = Value.compare .greater true b a ∧
    (∀ flag, Value.compare .equal flag a b = Value.compare .equal flag b a) ∧
    (∀ flag, Value.compare .notEqual flag a b = !Value.compare .equal flag a b) ∧
    (∀ flag, ¬(Value.compare .less false a b = true ∧ Value.compare .equal flag a b = true)) ∧
    (∀ flag, ¬(Value.compare .equal flag a b = true ∧ Value.compare .greater false a b = true)) ∧
    ¬(Value.compare .less false a b = true ∧ Value.compare .greater false a b = true) := by
  have hcomm := looselyEquals_comm a b
  refine ⟨rfl, ?_, fun _ => hcomm, fun _ => rfl, ?_, ?_, ?_⟩
  · simp only [Value.compare, greaterThan, hcomm]
  · rintro flag ⟨hless, hequal⟩
    exact (looselyEquals_iff.mp hequal).not_before (lessThan_iff.mp hless)
  · rintro flag ⟨hequal, hgreater⟩
    exact (looselyEquals_iff.mp hequal).symm.not_before (lessThan_iff.mp hgreater)
  · rintro ⟨hless, hgreater⟩
    exact (lessThan_iff.mp hless).asymm (lessThan_iff.mp hgreater)

end Scriptlet.Proofs.Comparisons

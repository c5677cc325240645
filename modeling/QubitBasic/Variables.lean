/-
  The variables of a run: a finite map from names to values.  Names are case-sensitive.
-/
import QubitBasic.Value

namespace QubitBasic

/-- Names bound to values, each name at most once. -/
structure Variables where
  bindings : List (String × Value) := []
  deriving DecidableEq, Repr

namespace Variables

/-- The value bound to `name`. -/
def get? (vars : Variables) (name : String) : Option Value := vars.bindings.lookup name

/-- Binds `name` to `value`, in place of what it was bound to before. -/
def bind (vars : Variables) (name : String) (value : Value) : Variables :=
  ⟨(name, value) :: vars.bindings.filter fun binding => binding.1 != name⟩

theorem lookup_filter_ne (bindings : List (String × Value)) {name other : String}
    (h : other ≠ name) :
    (bindings.filter fun b => b.1 != name).lookup other = bindings.lookup other := by
  induction bindings with
  | nil => rfl
  | cons b bs ih =>
    obtain ⟨key, value⟩ := b
    by_cases hk : key = name
    · subst hk
      simp [List.lookup_cons, ih, beq_false_of_ne h]
    · simp [List.lookup_cons, hk, ih]

/-- A binding is seen under its own name and under no other. -/
theorem get?_bind (vars : Variables) (name other : String) (value : Value) :
    (vars.bind name value).get? other = if other = name then some value else vars.get? other := by
  by_cases h : other = name
  · simp [get?, bind, h]
  · simp [get?, bind, h, List.lookup_cons, beq_false_of_ne h, lookup_filter_ne _ h]

end Variables

end QubitBasic

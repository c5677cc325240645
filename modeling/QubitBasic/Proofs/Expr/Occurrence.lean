/-
  What an expression takes from the variables.

  The names that occur in an expression are listed from left to right (`names`).  For an expression that
  was read from a text this is the order of the text: the names are those among its tokens
  (`Derives.names_eq`).  Of each name an expression takes only the `reading`: that it is unbound, that it
  holds no number, or the number.

  Operands are evaluated from left to right, and the first fault ends the evaluation.  So an expression
  has a value exactly if none of its names has a fault, and fails with the fault of the first name that
  has one (`eval_cases`); all of this is one induction, in which the names of two operands stand one
  behind the other as the operands do.
-/
import QubitBasic.Proofs.Expr.Grammar

namespace QubitBasic

/-- What `name` is to an expression: `none` if it is unbound, otherwise the number that its value reads
    as, if it reads as one. -/
def Variables.reading (vars : Variables) (name : String) : Option (Option Float) :=
  (vars.get? name).map Value.number?

namespace Expr

/-- The names that occur in an expression, from left to right, each as often as it occurs. -/
def names : Expr → List String
  | .literal _ => []
  | .var name => [name]
  | .neg operand => operand.names
  | .binary _ left right => left.names ++ right.names

/-- The literal `x` in place of every occurrence of `name`. -/
def substitute (name : String) (x : Float) : Expr → Expr
  | .literal y => .literal y
  | .var other => if other = name then .literal x else .var other
  | .neg operand => .neg (operand.substitute name x)
  | .binary op left right => .binary op (left.substitute name x) (right.substitute name x)

/-! ## Names in the order of the text -/

/-- The name that a token is. -/
def Token.name? : Token → Option String
  | .name text => some text
  | _ => none

/-- The names in the tree to the left of a repetition. -/
def Phrase.names : Phrase → List String
  | .sums left => left.names
  | .products left => left.names
  | _ => []

/-- The names in a tree are those among its tokens. -/
theorem Derives.names_eq {phrase : Phrase} {ts : List Token} {e : Expr} (h : Derives phrase ts e) :
    e.names = phrase.names ++ ts.filterMap Token.name? := by
  -- A repetition goes on from the tree to its left, whose names stand before its tokens.
  induction h with
  | expr _ _ ihterm ihsums => simp_all [Phrase.names]
  | sumsNil => simp [Phrase.names]
  | sumsCons _ _ _ ihterm ihsums =>
    simp_all [Phrase.names, Expr.names, Token.name?, List.filterMap_cons]
  | term _ _ ihunary ihproducts => simp_all [Phrase.names]
  | productsNil => simp [Phrase.names]
  | productsCons _ _ _ ihunary ihproducts =>
    simp_all [Phrase.names, Expr.names, Token.name?, List.filterMap_cons]
  | minus _ ih => exact ih
  | plus _ ih => exact ih
  | primary _ ih => exact ih
  | number => rfl
  | name => rfl
  | parens _ ih => simpa [Phrase.names, Token.name?, List.filterMap_cons] using ih

theorem names_of_parse {source : String} {ts : List Token} {e : Expr}
    (hscan : Token.scan source.toList = .ok ts) (hparse : parse source = .ok e) :
    e.names = ts.filterMap Token.name? := by
  rw [parse, hscan] at hparse
  exact (derives_of_ofTokens hparse).names_eq

/-! ## Faults -/

variable {vars vars' : Variables}

/-- Why `name` has no number. -/
def fault? (vars : Variables) (name : String) : Option EvalError :=
  match vars.reading name with
  | none => some (.unbound name)
  | some none => some (.notANumber name)
  | some (some _) => none

/-- Looking up a name depends on its reading only. -/
theorem lookup_eq (vars : Variables) (name : String) :
    lookup vars name = match vars.reading name with
      | none => .error (.unbound name)
      | some none => .error (.notANumber name)
      | some (some x) => .ok x := by
  rw [lookup, Variables.reading]
  cases vars.get? name with
  | none => rfl
  | some value =>
    dsimp only [Option.map_some]
    cases value.number? <;> rfl

theorem fault?_eq_none_iff {name : String} :
    fault? vars name = none ↔ ∃ x, vars.reading name = some (some x) := by
  rw [fault?]
  rcases vars.reading name with _ | _ | x <;> simp

theorem fault?_eq_some_iff {name : String} {err : EvalError} :
    fault? vars name = some err ↔ vars.reading name = none ∧ err = .unbound name ∨
      vars.reading name = some none ∧ err = .notANumber name := by
  rw [fault?]
  rcases vars.reading name with _ | _ | x <;> simp [eq_comm]

/-- The error is the fault of the first of the names that has one: those before it read as numbers, and
    it is itself unbound or holds no number. -/
def FirstFault (vars : Variables) (names : List String) (err : EvalError) : Prop :=
  ∃ before name after, names = before ++ name :: after ∧
    (∀ other ∈ before, ∃ x, vars.reading other = some (some x)) ∧
    (vars.reading name = none ∧ err = .unbound name ∨
      vars.reading name = some none ∧ err = .notANumber name)

theorem firstFault_iff {names : List String} {err : EvalError} :
    FirstFault vars names err ↔ names.findSome? (fault? vars) = some err := by
  rw [List.findSome?_eq_some_iff]
  constructor
  · rintro ⟨before, name, after, hnames, hbefore, hfault⟩
    refine ⟨before, name, after, hnames, fault?_eq_some_iff.2 hfault, ?_⟩
    intro other hother
    exact fault?_eq_none_iff.2 (hbefore other hother)
  · rintro ⟨before, name, after, hnames, hfault, hbefore⟩
    refine ⟨before, name, after, hnames, ?_, fault?_eq_some_iff.1 hfault⟩
    intro other hother
    exact fault?_eq_none_iff.1 (hbefore other hother)

/-- An expression has a value if no name has a fault, and otherwise fails with the first fault. -/
theorem eval_cases (vars : Variables) (e : Expr) :
    (e.names.findSome? (fault? vars) = none ∧ ∃ x, e.eval vars = .ok x) ∨
      ∃ err, e.names.findSome? (fault? vars) = some err ∧ e.eval vars = .error err := by
  induction e with
  | literal x => exact .inl ⟨rfl, x, rfl⟩
  | var name =>
    rw [names, eval, lookup_eq, List.findSome?_singleton, fault?]
    rcases vars.reading name with _ | _ | x
    · exact .inr ⟨_, rfl, rfl⟩
    · exact .inr ⟨_, rfl, rfl⟩
    · exact .inl ⟨rfl, x, rfl⟩
  | neg operand ih =>
    rw [names, eval]
    rcases ih with ⟨hnames, x, heval⟩ | ⟨err, hnames, heval⟩
    · exact .inl ⟨hnames, -x, by rw [heval]; rfl⟩
    · exact .inr ⟨err, hnames, by rw [heval]; rfl⟩
  | binary op left right ihleft ihright =>
    rw [names, eval, List.findSome?_append]
    rcases ihleft with ⟨hnames, a, heval⟩ | ⟨err, hnames, heval⟩
    · -- The left operand has a value, so it is up to the right one.
      rw [hnames, heval, Option.none_or]
      rcases ihright with ⟨hnames, b, heval⟩ | ⟨err, hnames, heval⟩
      · exact .inl ⟨hnames, op.apply a b, by dsimp only; rw [heval]; rfl⟩
      · exact .inr ⟨err, hnames, by dsimp only; rw [heval]; rfl⟩
    · exact .inr ⟨err, by rw [hnames]; rfl, by rw [heval]⟩

theorem exists_eval_eq_ok_iff {e : Expr} :
    (∃ x, e.eval vars = .ok x) ↔ ∀ name ∈ e.names, ∃ x, vars.reading name = some (some x) := by
  have hnone : e.names.findSome? (fault? vars) = none ↔
      ∀ name ∈ e.names, ∃ x, vars.reading name = some (some x) := by
    rw [List.findSome?_eq_none_iff]
    exact forall₂_congr fun _ _ => fault?_eq_none_iff
  rw [← hnone]
  rcases eval_cases vars e with ⟨hnames, hvalue⟩ | ⟨err, hnames, heval⟩
  · exact iff_of_true hvalue hnames
  · rw [hnames, heval]
    simp

theorem eval_eq_error_iff {e : Expr} {err : EvalError} :
    e.eval vars = .error err ↔ FirstFault vars e.names err := by
  rw [firstFault_iff]
  rcases eval_cases vars e with ⟨hnames, x, heval⟩ | ⟨first, hnames, heval⟩
  · rw [hnames, heval]
    simp
  · rw [hnames, heval]
    simp

/-! ## Stores that agree -/

/-- Stores with the same readings give the same result. -/
theorem eval_congr {e : Expr} (h : ∀ name ∈ e.names, vars'.reading name = vars.reading name) :
    e.eval vars' = e.eval vars := by
  induction e with
  | literal x => rfl
  | var name => rw [eval, eval, lookup_eq, lookup_eq, h name List.mem_cons_self]
  | neg operand ih => rw [eval, eval, ih h]
  | binary op left right ihleft ihright =>
    rw [eval, eval, ihleft fun name hname => h name (List.mem_append_left _ hname),
      ihright fun name hname => h name (List.mem_append_right _ hname)]

/-- A literal in place of a name that reads as it gives the same result. -/
theorem eval_substitute {name : String} {x : Float} (h : vars.reading name = some (some x))
    (e : Expr) : (e.substitute name x).eval vars = e.eval vars := by
  induction e with
  | literal y => rfl
  | var other =>
    rw [substitute]
    split
    · rename_i heq
      rw [heq, eval, eval, lookup_eq, h]
    · rfl
  | neg operand ih => rw [substitute, eval, eval, ih]
  | binary op left right ihleft ihright => rw [substitute, eval, eval, ihleft, ihright]

theorem names_substitute (name : String) (x : Float) (e : Expr) :
    (e.substitute name x).names = e.names.filter (· ≠ name) := by
  induction e with
  | literal y => rfl
  | var other =>
    rw [substitute]
    split <;> simp_all [names]
  | neg operand ih => exact ih
  | binary op left right ihleft ihright =>
    rw [substitute, names, names, List.filter_append, ihleft, ihright]

theorem toOption_lookup (vars : Variables) (name : String) :
    (lookup vars name).toOption = (vars.reading name).join := by
  rw [lookup_eq]
  rcases vars.reading name with _ | _ | x <;> rfl

theorem toOption_eval_neg (vars : Variables) (operand : Expr) :
    ((Expr.neg operand).eval vars).toOption = (operand.eval vars).toOption.map (- ·) := by
  rw [eval]
  cases operand.eval vars <;> rfl

theorem toOption_eval_binary (vars : Variables) (op : Operator) (left right : Expr) :
    ((Expr.binary op left right).eval vars).toOption =
      (left.eval vars).toOption.bind fun a => (right.eval vars).toOption.map (op.apply a) := by
  rw [eval]
  cases left.eval vars with
  | error e => rfl
  | ok a => cases right.eval vars <;> rfl

/-- Stores that agree in the numbers read give the same value or none, though perhaps for different
    reasons. -/
theorem toOption_eval_congr {e : Expr}
    (h : ∀ name ∈ e.names, (vars'.reading name).join = (vars.reading name).join) :
    (e.eval vars').toOption = (e.eval vars).toOption := by
  induction e with
  | literal x => rfl
  | var name => rw [eval, eval, toOption_lookup, toOption_lookup, h name List.mem_cons_self]
  | neg operand ih => rw [toOption_eval_neg, toOption_eval_neg, ih h]
  | binary op left right ihleft ihright =>
    rw [toOption_eval_binary, toOption_eval_binary,
      ihleft fun name hname => h name (List.mem_append_left _ hname),
      ihright fun name hname => h name (List.mem_append_right _ hname)]

/-- **An expression fails on its leftmost bad name and reads nothing else.**  It has a value exactly if
    each of its names reads as a number, and otherwise fails with the fault of the first name, in the
    order of the text, that is unbound or holds no number.  Stores with the same readings of its names
    give the same result; if they agree in the numbers read, the same value if there is one.  A literal
    in place of all occurrences of a name that reads as it gives the same result. -/
theorem eval_fails_on_first_fault (e : Expr) (vars : Variables) :
    ((∃ x, e.eval vars = .ok x) ↔ ∀ name ∈ e.names, ∃ x, vars.reading name = some (some x)) ∧
    (∀ err, e.eval vars = .error err ↔ FirstFault vars e.names err) ∧
    (∀ source ts, Token.scan source.toList = .ok ts → parse source = .ok e →
      e.names = ts.filterMap Token.name?) ∧
    (∀ vars' : Variables, (∀ name ∈ e.names, vars'.reading name = vars.reading name) →
      e.eval vars' = e.eval vars) ∧
    (∀ vars' : Variables,
      (∀ name ∈ e.names, (vars'.reading name).join = (vars.reading name).join) →
      (e.eval vars').toOption = (e.eval vars).toOption) ∧
    (∀ name x, vars.reading name = some (some x) →
      (e.substitute name x).eval vars = e.eval vars ∧
      (e.substitute name x).names = e.names.filter (· ≠ name)) := by
  refine ⟨exists_eval_eq_ok_iff, fun _ => eval_eq_error_iff, ?_, ?_, ?_, ?_⟩
  · intro source ts hscan hparse
    exact names_of_parse hscan hparse
  · intro vars' h
    exact eval_congr h
  · intro vars' h
    exact toOption_eval_congr h
  · intro name x h
    exact ⟨eval_substitute h e, names_substitute name x e⟩

/-- In `A+S*C` with a number for `A`, a word for `S` and nothing for `C`, the fault is that of `S`.  It
    makes no difference whether `A` holds the number or its numeral, and which word `S` holds. -/
theorem eval_fails_on_first_fault_word :
    let e : Expr := .binary .add (.var "A") (.binary .mul (.var "S") (.var "C"))
    let four := Decimal.toFloat ⟨4, 0⟩
    let vars : Variables := ⟨[("A", .number four), ("S", .text "x")]⟩
    let other : Variables := ⟨[("A", .text " 4 "), ("S", .text "y")]⟩
    let less : Variables := ⟨[("A", .text "4.")]⟩
    FirstFault vars e.names (.notANumber "S") ∧ e.names = ["A", "S", "C"] ∧
      e.eval other = e.eval vars ∧ (e.eval less).toOption = (e.eval vars).toOption ∧
      (e.substitute "A" four).eval vars = e.eval vars := by
  intro e four vars other less
  obtain ⟨-, hfault, hnames, hagree, hnumbers, hliteral⟩ := eval_fails_on_first_fault e vars
  have hscan : Token.scan "A+S*C".toList =
      .ok [.name "A", .operator .add, .name "S", .operator .mul, .name "C"] := by cbv
  have hparse : parse "A+S*C" = .ok e := by
    rw [parse, hscan]
    rfl
  refine ⟨(hfault _).1 rfl, hnames "A+S*C" _ hscan hparse, hagree other ?_, hnumbers less ?_,
    (hliteral "A" four rfl).1⟩
  · intro name hname
    obtain rfl | rfl | rfl : name = "A" ∨ name = "S" ∨ name = "C" := by simpa [e, names] using hname
    · rfl
    · rfl
    · rfl
  · intro name hname
    obtain rfl | rfl | rfl : name = "A" ∨ name = "S" ∨ name = "C" := by simpa [e, names] using hname
    · rfl
    · rfl
    · rfl

end Expr

end QubitBasic

/-
  Where a `GOTO` goes.

  The operand of a `GOTO` is a text like any other: it is evaluated, and its value is read as a whole
  number, within 64 bits.  A numeral is no name of a variable on any machine that a run reaches, so its
  value is the double nearest to it, and what it is read as is a whole number again.  That number is the
  one written wherever the number written is a double below `2 ^ 63`; from `2 ^ 63 - 1` on it is
  `2 ^ 63 - 1`, the greatest there is (`integer?_toString`).

  The line that a `GOTO` goes to is the first one of the number read, by the search in the listing
  (`Listing.index?_cases`), and under either policy it goes nowhere else (`goto_lands`).  Lines may have
  numbers up to `2 ^ 64 - 1`, so some of them no numeral leads to (`goto_misses_greatest_lines`).
-/
import QubitBasic.Proofs.Decimal.WholeNumber
import QubitBasic.Proofs.Decimal.Written
import QubitBasic.Proofs.Listing.Search
import QubitBasic.Proofs.Machine.Names
import QubitBasic.Proofs.Text.Lines

namespace QubitBasic

open Text

/-! ## Numerals -/

theorem isNameStart_of_isDigit {c : Char} (h : c.isDigit = true) : isNameStart c = false := by
  have hrange := toNat_of_isDigit h
  have hline : c ≠ '_' := by
    rintro rfl
    exact absurd hrange (by decide)
  simp [isNameStart, hline, Char.isAlpha, Char.isUpper, Char.isLower, UInt32.le_iff_toNat_le]
  omega

theorem trim_toDigits (n : Nat) : trim (toDigits n) = toDigits n := (trimmed_toDigits n).trim_eq

theorem numberLiteral?_toDigits (n : Nat) :
    numberLiteral? (toDigits n) = some (Decimal.toFloat ⟨n, 0⟩) :=
  (Decimal.written_toDigits n).numberLiteral?_eq

theorem quoted?_toDigits (n : Nat) : quoted? (toDigits n) = none := by
  obtain ⟨c, cs, hdigits, hc⟩ := exists_toDigits n
  rw [hdigits, quoted?, if_neg]
  rintro ⟨rfl, -⟩
  exact absurd hc (by decide)

theorem isIdentifier_toDigits (n : Nat) : isIdentifier (toDigits n) = false := by
  obtain ⟨c, cs, hdigits, hc⟩ := exists_toDigits n
  rw [hdigits, isIdentifier, isNameStart_of_isDigit hc, Bool.false_and]

/-- Where only identifiers are bound, a numeral has the value that it denotes. -/
theorem evaluate_toString {m : Machine} (hm : m.Named) (n : Nat) :
    evaluate m.vars (toString n) = .number (Decimal.toFloat ⟨n, 0⟩) := by
  have hget : m.vars.get? (String.ofList (toDigits n)) = none := by
    cases hvalue : m.vars.get? (String.ofList (toDigits n)) with
    | none => rfl
    | some value =>
      have hname := hm _ (by rw [hvalue]; rfl)
      rw [String.toList_ofList, isIdentifier_toDigits] at hname
      cases hname
  rw [evaluate, toList_toString, trim_toDigits, evaluateTrimmed, quoted?_toDigits]
  simp only [hget, numberLiteral?_toDigits]

theorem saturate_natCast (t : Nat) : Value.saturate t = (min t (2 ^ 63 - 1) : Nat) := by
  simp only [Value.saturate, Value.leastInteger, Value.greatestInteger]
  omega

/-- What a numeral is read as: itself if it is a double below `2 ^ 63`, and never more than
    `2 ^ 63 - 1`. -/
theorem integer?_toString {m : Machine} (hm : m.Named) {n : Nat} (hword : n ≤ greatestWord) :
    ∃ t : Nat, (evaluate m.vars (toString n)).integer? = some (t : Int) ∧
      (Binary64.IsDouble n → n < 2 ^ 63 → t = n) ∧ (2 ^ 63 - 1 ≤ n → t = 2 ^ 63 - 1) := by
  have hword : n < 2 ^ 64 := Nat.lt_succ_of_le hword
  obtain ⟨t, ht, hexact, hlarge⟩ := Binary64.exists_toInt? hword
  refine ⟨min t (2 ^ 63 - 1), ?_, fun hdouble hn => ?_, fun hn => ?_⟩
  · rw [evaluate_toString hm]
    simp only [Value.integer?, Value.number?, Option.bind_some, ht, Option.map_some, saturate_natCast]
  · rw [hexact hdouble]
    omega
  · rcases Nat.lt_or_ge n (2 ^ 63) with hlt | hge
    · -- The greatest number that can be read is no double; it is rounded up and cut off again.
      obtain rfl : n = 2 ^ 63 - 1 := by omega
      have hround : Binary64.toInt? (Decimal.toFloat ⟨2 ^ 63 - 1, 0⟩) = some (2 ^ 63 : Nat) := by
        decide +kernel
      obtain rfl : 2 ^ 63 = t := Int.ofNat.inj (Option.some.inj (hround.symm.trans ht))
      omega
    · have := hlarge hge
      omega

/-! ## Jumps -/

/-- The statement is a `GOTO` to `target`, or holds one behind a condition that holds. -/
def Statement.GoesTo (vars : Variables) (target : String) : Statement → Prop
  | .simple action => action = .goto target
  | .conditional condition action => Condition.holds vars condition = true ∧ action = .goto target

namespace Machine

variable (policy : TargetPolicy) (listing : Listing) (text : String) {target : String} {m : Machine}

/-- A `GOTO` leaves the machine alone. -/
theorem act_goto {n : Int} (h : (evaluate m.vars target).integer? = some n) :
    act policy listing text (.goto target) m =
      match jump policy listing n with
      | .ok flow => .ok flow m
      | .error error => .error error m := by
  rw [act_of_not_engineMissing (by rfl), perform, bind_of_ok (integer_of_some h)]
  cases jump policy listing n <;> rfl

theorem execute_of_goesTo {statement : Statement} (hgoes : statement.GoesTo m.vars target) {n : Int}
    (h : (evaluate m.vars target).integer? = some n) :
    execute policy listing text statement m =
      match jump policy listing n with
      | .ok flow => .ok flow m
      | .error error => .error error m := by
  cases statement with
  | simple action =>
    obtain rfl : action = .goto target := hgoes
    exact act_goto policy listing text h
  | conditional condition action =>
    obtain ⟨hholds, rfl⟩ : Condition.holds m.vars condition = true ∧ action = .goto target := hgoes
    rw [execute_of_holds hholds]
    exact act_goto policy listing text h

/-- A jump goes to the first line of a number; only where there is none, the policy decides. -/
theorem jump_cases {listing : Listing} (hsorted : Listing.Sorted listing.lines.toList)
    (number : Nat) :
    (∃ index, listing.FirstAt index number ∧ jump policy listing number = .ok (.jump index)) ∨
      ((∀ index, ¬ listing.NumberedAt index number) ∧
        jump policy listing number =
          match policy with
          | .fallThrough => .ok .next
          | .strict => .error (.unknownTarget number)) := by
  have hlook : jump policy listing number =
      match listing.index? number, policy with
      | some index, _ => .ok (.jump index)
      | none, .strict => .error (.unknownTarget number)
      | none, .fallThrough => .ok .next := by
    unfold jump
    rw [if_pos (Int.natCast_nonneg number), Int.toNat_natCast]
    cases listing.index? number <;> cases policy <;> rfl
  rcases Listing.index?_cases hsorted number with ⟨index, hindex, hfirst⟩ | ⟨hindex, hnone⟩
  · refine .inl ⟨index, hfirst, ?_⟩
    rw [hlook, hindex]
  · refine .inr ⟨hnone, ?_⟩
    rw [hlook, hindex]
    cases policy <;> rfl

end Machine

/-! ## Runs -/

namespace Run

variable {policy : TargetPolicy} {listing : Listing}

/-- **Where a `GOTO` goes.**  On a machine that a run of a listing reaches, whatever its count of steps,
    let a statement be executed that is a `GOTO` to the numeral of `n`, or holds one behind a condition
    that holds.  The numeral is read as a whole number `t`: as `n` itself if `n` is a double below
    `2 ^ 63`, and as `2 ^ 63 - 1` if `n` is that or more.  The statement goes to the first line numbered
    `t`; if there is none, it goes on or fails by the policy.  Either way it changes nothing else. -/
theorem goto_lands {duplicates : DuplicatePolicy} {source : String}
    (hparse : Listing.parse duplicates source = .ok listing) {engine : Option Engine} {k : Nat}
    {m : Machine} (hreach : Reaches policy listing { engine } k m) (steps : Nat) (text : String)
    {n : Nat} (hword : n ≤ greatestWord) {statement : Statement}
    (hgoes : statement.GoesTo m.vars (toString n)) :
    ∃ t : Nat, (evaluate m.vars (toString n)).integer? = some (t : Int) ∧
      (Binary64.IsDouble n → n < 2 ^ 63 → t = n) ∧ (2 ^ 63 - 1 ≤ n → t = 2 ^ 63 - 1) ∧
      ((∃ index, listing.FirstAt index t ∧
          Machine.execute policy listing text statement { m with steps } =
            .ok (.jump index) { m with steps }) ∨
        ((∀ index, ¬ listing.NumberedAt index t) ∧
          Machine.execute policy listing text statement { m with steps } =
            match policy with
            | .fallThrough => .ok .next { m with steps }
            | .strict => .error (.unknownTarget t) { m with steps })) := by
  have hnamed : m.Named := hreach.named fun _ h => by cases h
  obtain ⟨t, hread, hexact, hlarge⟩ := integer?_toString hnamed hword
  have hexecute := Machine.execute_of_goesTo policy listing text (m := { m with steps }) hgoes hread
  refine ⟨t, hread, hexact, hlarge, ?_⟩
  rcases Machine.jump_cases policy (Listing.sorted_of_parse hparse) t with
    ⟨index, hfirst, hjump⟩ | ⟨hnone, hjump⟩
  · refine .inl ⟨index, hfirst, ?_⟩
    rw [hexecute, hjump]
  · refine .inr ⟨hnone, ?_⟩
    rw [hexecute, hjump]
    cases policy <;> rfl

/-- Of two lines of one number a `GOTO` behind a condition goes to the first. -/
theorem goto_lands_first_of_two :
    let listing : Listing := ⟨#[⟨10, "IF 1 = 1 THEN 40"⟩, ⟨40, "PRINT 1"⟩, ⟨40, "PRINT 2"⟩]⟩
    let m : Machine := { engine := none }
    let statement : Statement := .conditional "1 = 1" (.goto (toString 40))
    Listing.parse .keep "40 PRINT 1\n10 IF 1 = 1 THEN 40\n40 PRINT 2" = .ok listing ∧
      statement.GoesTo m.vars (toString 40) ∧
      ∃ index, listing.FirstAt index 40 ∧
        Machine.execute .strict listing "IF 1 = 1 THEN 40" statement m = .ok (.jump index) m := by
  intro listing m statement
  have hparse : Listing.parse .keep "40 PRINT 1\n10 IF 1 = 1 THEN 40\n40 PRINT 2" = .ok listing := by
    decide +kernel
  have hgoes : statement.GoesTo m.vars (toString 40) := ⟨by decide +kernel, rfl⟩
  refine ⟨hparse, hgoes, ?_⟩
  have hreach : Reaches .strict listing m 0 m := .refl
  obtain ⟨t, -, hexact, -, hlands⟩ :=
    goto_lands hparse hreach 0 "IF 1 = 1 THEN 40" (n := 40) (by decide) hgoes
  obtain rfl : t = 40 := hexact ⟨40, 0, by decide, rfl⟩ (by decide)
  rcases hlands with hfirst | ⟨hnone, -⟩
  · exact hfirst
  · exact absurd ⟨_, rfl, rfl⟩ (hnone 1)

/-- The line numbered `2 ^ 63` is there, and a `GOTO` to it goes on as if it were not: what is read is
    the number before. -/
theorem goto_misses_greatest_lines :
    let listing : Listing := ⟨#[⟨1, "GOTO 9223372036854775808"⟩, ⟨2, "PRINT 1"⟩,
      ⟨9223372036854775808, "PRINT 2"⟩]⟩
    let m : Machine := { engine := none }
    Listing.parse .keep "1 GOTO 9223372036854775808\n2 PRINT 1\n9223372036854775808 PRINT 2" =
        .ok listing ∧
      Reaches .fallThrough listing m 0 m ∧ listing.FirstAt 2 9223372036854775808 ∧
      Machine.execute .fallThrough listing "GOTO 9223372036854775808"
        (.simple (.goto (toString 9223372036854775808))) m = .ok .next m := by
  intro listing m
  have hread : (evaluate m.vars (toString 9223372036854775808)).integer? =
      some 9223372036854775807 := by
    decide +kernel
  have hjump : Machine.jump .fallThrough listing 9223372036854775807 = .ok .next := by
    decide +kernel
  refine ⟨by decide +kernel, .refl, ⟨⟨_, rfl, rfl⟩, fun i hi => ?_⟩, ?_⟩
  · rw [Listing.numberedAt_iff]
    interval_cases i <;> decide
  · rw [Machine.execute, Machine.act_goto _ _ _ hread, hjump]

end Run

end QubitBasic

/-
  Number literals are expressions.

  Numbers are read in two places.  Evaluation looks at a whole text and asks whether it is, blanks around
  it apart, a literal with at most one sign.  The scanner of expressions cuts a number off a longer text:
  a run of digits and points, and an exponent if a complete one stands behind it.

  The two agree.  What is a literal as a whole the scanner takes to its end (`numeral_of_ofLiteral?`), and
  a blank behind it is where the scanner stops anyway (`numeral_append_of_blankAhead`).  So a literal is
  scanned as one number, after its sign if it has one (`scan_literal`), and the expression read from these
  tokens has the value of the literal.  Evaluation could leave the literals to the expressions
  (`literals_are_expressions`).
-/
import Mathlib.Data.List.TakeWhile
import QubitBasic.Evaluate
import QubitBasic.Proofs.Text.Lines
import QubitBasic.Proofs.Text.Trim

namespace QubitBasic

open Text

/-! ## Text before a blank -/

section Stop

variable {p : Char → Bool} {bs : List Char}

theorem Text.takeWhile_append_of_stop (hstop : ∀ c ∈ bs.head?, p c = false) (as : List Char) :
    (as ++ bs).takeWhile p = as.takeWhile p := by
  induction as with
  | nil =>
    cases bs with
    | nil => rfl
    | cons b bs => simp [hstop b rfl]
  | cons a as ih => simp only [List.cons_append, List.takeWhile_cons, ih]

theorem Text.dropWhile_append_of_stop (hstop : ∀ c ∈ bs.head?, p c = false) (as : List Char) :
    (as ++ bs).dropWhile p = as.dropWhile p ++ bs := by
  induction as with
  | nil =>
    cases bs with
    | nil => rfl
    | cons b bs => simp [hstop b rfl]
  | cons a as ih =>
    simp only [List.cons_append, List.dropWhile_cons, ih]
    split <;> rfl

end Stop

namespace Expr.Token

/-- Nothing follows, or a blank does.  A blank is no digit, point, sign or mark of an exponent, so it is
    no part of a number. -/
def BlankAhead (bs : List Char) : Prop := ∀ c ∈ bs.head?, isBlank c = true

theorem blankAhead_of_blanks {bs : List Char} (h : Blanks bs) : BlankAhead bs := by
  intro c hc
  exact h c (List.mem_of_head? hc)

theorem ne_of_isBlank {c d : Char} (hc : isBlank c = true) (hd : isBlank d = false) : c ≠ d := by
  rintro rfl
  rw [hc] at hd
  cases hd

theorem isDigit_of_isBlank {c : Char} (h : isBlank c = true) : c.isDigit = false := by
  cases hdigit : c.isDigit with
  | false => rfl
  | true =>
    rw [isBlank_of_isDigit hdigit] at h
    cases h

theorem isMantissa_of_isBlank {c : Char} (h : isBlank c = true) : isMantissa c = false := by
  rw [isMantissa, isDigit_of_isBlank h, Bool.false_or]
  exact beq_false_of_ne (ne_of_isBlank h (by decide))

variable {bs : List Char}

theorem sign_append_of_blankAhead (hb : BlankAhead bs) (cs : List Char) :
    sign (cs ++ bs) = ((sign cs).1, (sign cs).2 ++ bs) := by
  cases cs with
  | cons c cs =>
    simp only [List.cons_append, sign]
    split <;> rfl
  | nil =>
    cases bs with
    | nil => rfl
    | cons b bs =>
      have hplus : (b == '+') = false := beq_false_of_ne (ne_of_isBlank (hb b rfl) (by decide))
      have hminus : (b == '-') = false := beq_false_of_ne (ne_of_isBlank (hb b rfl) (by decide))
      simp [sign, hplus, hminus]

theorem exponent_append_of_blankAhead (hb : BlankAhead bs) (cs : List Char) :
    exponent (cs ++ bs) = ((exponent cs).1, (exponent cs).2 ++ bs) := by
  cases cs with
  | cons c cs =>
    have hstop : ∀ c ∈ bs.head?, c.isDigit = false := fun c hc => isDigit_of_isBlank (hb c hc)
    simp only [List.cons_append, exponent, sign_append_of_blankAhead hb,
      takeWhile_append_of_stop hstop, dropWhile_append_of_stop hstop]
    split
    · split <;> rfl
    · rfl
  | nil =>
    cases bs with
    | nil => rfl
    | cons b bs =>
      have hlower : (b == 'e') = false := beq_false_of_ne (ne_of_isBlank (hb b rfl) (by decide))
      have hupper : (b == 'E') = false := beq_false_of_ne (ne_of_isBlank (hb b rfl) (by decide))
      simp [exponent, hlower, hupper]

/-- A blank ends a number, whatever the number could have gone on with. -/
theorem numeral_append_of_blankAhead (hb : BlankAhead bs) (cs : List Char) :
    numeral (cs ++ bs) = ((numeral cs).1, (numeral cs).2 ++ bs) := by
  have hstop : ∀ c ∈ bs.head?, isMantissa c = false := fun c hc => isMantissa_of_isBlank (hb c hc)
  simp only [numeral, takeWhile_append_of_stop hstop, dropWhile_append_of_stop hstop,
    exponent_append_of_blankAhead hb]

/-! ## A literal is scanned to its end -/

/-- What is left of a literal after its fraction begins behind characters of its mantissa. -/
theorem exists_fraction_append (cs : List Char) : ∃ mantissa,
    (∀ c ∈ mantissa, isMantissa c = true) ∧ cs = mantissa ++ (Decimal.fraction cs).2 ∧
      (mantissa = [] → (Decimal.fraction cs).1 = []) := by
  cases cs with
  | nil => exact ⟨[], by simp, rfl, fun _ => rfl⟩
  | cons c cs =>
    rw [Decimal.fraction]
    split
    · rename_i hpoint
      obtain rfl : c = '.' := by simpa using hpoint
      refine ⟨'.' :: cs.takeWhile Char.isDigit, ?_, by simp, by simp⟩
      intro d hd
      rcases List.mem_cons.1 hd with rfl | hd
      · decide
      · have hdigit := List.all_eq_true.1 List.all_takeWhile d hd
        simp [isMantissa, hdigit]
    · exact ⟨[], by simp, rfl, fun _ => rfl⟩

/-- A literal is a mantissa, of at least one character, and an exponent, which may be missing. -/
theorem exists_mantissa {cs : List Char} {d : Decimal} (h : Decimal.ofLiteral? cs = some d) :
    ∃ mantissa rest e, cs = mantissa ++ rest ∧ mantissa ≠ [] ∧
      (∀ c ∈ mantissa, isMantissa c = true) ∧ Decimal.exponent? rest = some e := by
  obtain ⟨point, hpoint, htail, hempty⟩ := exists_fraction_append (cs.dropWhile Char.isDigit)
  rw [Decimal.ofLiteral?] at h
  dsimp only at h
  split at h
  · cases h
  · rename_i hsome
    obtain ⟨e, he, -⟩ := Option.map_eq_some_iff.1 h
    refine ⟨cs.takeWhile Char.isDigit ++ point, _, e, ?_, ?_, ?_, he⟩
    · rw [List.append_assoc, ← htail, List.takeWhile_append_dropWhile]
    · -- Without a character there would be no digit on either side of the point.
      intro hnil
      obtain ⟨hwhole, rfl⟩ := List.append_eq_nil_iff.1 hnil
      simp [hwhole, hempty] at hsome
    · intro c hc
      rcases List.mem_append.1 hc with hc | hc
      · have hdigit := List.all_eq_true.1 List.all_takeWhile c hc
        simp [isMantissa, hdigit]
      · exact hpoint c hc

theorem isNumeral_of_signedNumeral? {cs : List Char} {e : Int}
    (h : Decimal.signedNumeral? cs = some e) : isNumeral (sign cs).2 = true := by
  rw [Decimal.signedNumeral?.eq_def] at h
  split at h
  · exact (Option.ite_none_right_eq_some.1 h).1
  · exact (Option.ite_none_right_eq_some.1 h).1
  · rename_i hplus hminus
    have hnumeral := (Option.ite_none_right_eq_some.1 h).1
    cases cs with
    | nil => exact hnumeral
    | cons c cs =>
      have hsign : ¬ ((c == '+' || c == '-') = true) := by
        intro hc
        rcases Bool.or_eq_true_iff.1 hc with hc | hc
        · exact hplus cs (by rw [beq_iff_eq.1 hc])
        · exact hminus cs (by rw [beq_iff_eq.1 hc])
      rwa [sign, if_neg hsign]

/-- A complete exponent is taken as a whole. -/
theorem exponent_of_exponent? {cs : List Char} {e : Int} (h : Decimal.exponent? cs = some e) :
    exponent cs = (cs, []) := by
  cases cs with
  | nil => rfl
  | cons c cs =>
    rw [Decimal.exponent?] at h
    split at h
    · rename_i hmark
      obtain ⟨hne, hall⟩ := Bool.and_eq_true_iff.1 (isNumeral_of_signedNumeral? h)
      have hdigits := List.all_eq_true.1 hall
      have htake : (sign cs).2.takeWhile Char.isDigit = (sign cs).2 :=
        List.takeWhile_eq_self_iff.2 hdigits
      have hdrop : (sign cs).2.dropWhile Char.isDigit = [] := List.dropWhile_eq_nil_iff.2 hdigits
      rw [exponent, if_pos hmark]
      dsimp only
      rw [htake, hdrop, if_neg (by simpa using hne), List.cons_append, sign_append]
    · cases h

/-- An exponent starts with no character of a mantissa. -/
theorem isMantissa_head_of_exponent? {cs : List Char} {e : Int} (h : Decimal.exponent? cs = some e) :
    ∀ c ∈ cs.head?, isMantissa c = false := by
  intro c hc
  cases cs with
  | nil => cases hc
  | cons d cs =>
    obtain rfl : d = c := Option.some.inj hc
    rw [Decimal.exponent?] at h
    split at h
    · rename_i hmark
      rcases Bool.or_eq_true_iff.1 hmark with hmark | hmark
      · rw [beq_iff_eq.1 hmark]
        decide
      · rw [beq_iff_eq.1 hmark]
        decide
    · cases h

/-- A literal is one number, and nothing of it is left. -/
theorem numeral_of_ofLiteral? {cs : List Char} {d : Decimal} (h : Decimal.ofLiteral? cs = some d) :
    numeral cs = (cs, []) := by
  obtain ⟨mantissa, rest, e, rfl, -, hmantissa, he⟩ := exists_mantissa h
  have hstop := isMantissa_head_of_exponent? he
  have htake : mantissa.takeWhile isMantissa = mantissa := List.takeWhile_eq_self_iff.2 hmantissa
  have hdrop : mantissa.dropWhile isMantissa = [] := List.dropWhile_eq_nil_iff.2 hmantissa
  simp only [numeral, takeWhile_append_of_stop hstop, dropWhile_append_of_stop hstop, htake, hdrop,
    List.nil_append, exponent_of_exponent? he]

/-! ## The tokens of a literal -/

theorem scan_nil : scan [] = .ok [] := by
  rw [scan.eq_def]

/-- One token of the scanner, without the proofs that it ends. -/
theorem scan_cons (c : Char) (rest : List Char) :
    scan (c :: rest) =
      if isBlank c then scan rest
      else match ofChar? c with
        | some token => (scan rest).map (token :: ·)
        | none =>
          if isMantissa c then
            match Decimal.ofLiteral? (numeral (c :: rest)).1 with
            | none => .error (.badNumber (String.ofList (numeral (c :: rest)).1))
            | some d => (scan (numeral (c :: rest)).2).map (.number d.toFloat :: ·)
          else if isNameStart c then
            (scan (rest.dropWhile isNameChar)).map
              (.name (String.ofList (c :: rest.takeWhile isNameChar)) :: ·)
          else .error (.unexpectedChar c) := by
  rw [scan.eq_def]
  rfl

theorem scan_blanks_append {as : List Char} (ha : Blanks as) (cs : List Char) :
    scan (as ++ cs) = scan cs := by
  induction as with
  | nil => rfl
  | cons a as ih =>
    rw [List.cons_append, scan_cons, if_pos (ha a List.mem_cons_self)]
    exact ih fun c hc => ha c (List.mem_cons_of_mem a hc)

theorem scan_blanks {bs : List Char} (hb : Blanks bs) : scan bs = .ok [] := by
  have h := scan_blanks_append hb []
  rw [List.append_nil] at h
  rw [h, scan_nil]

theorem scan_of_ofChar? {c : Char} {token : Token} (hblank : isBlank c = false)
    (htoken : ofChar? c = some token) (cs : List Char) :
    scan (c :: cs) = (scan cs).map (token :: ·) := by
  rw [scan_cons, hblank, if_neg Bool.false_ne_true, htoken]

theorem ofChar?_of_isMantissa {c : Char} (h : isMantissa c = true) : ofChar? c = none := by
  have hne : ∀ d : Char, isMantissa d = false → c ≠ d := by
    rintro d hd rfl
    rw [h] at hd
    cases hd
  rw [ofChar?, if_neg (hne _ (by decide)), if_neg (hne _ (by decide)), if_neg (hne _ (by decide)),
    if_neg (hne _ (by decide)), if_neg (hne _ (by decide)), if_neg (hne _ (by decide))]

/-- A literal before blanks is scanned as one number. -/
theorem scan_literal {cs bs : List Char} {d : Decimal} (h : Decimal.ofLiteral? cs = some d)
    (hb : Blanks bs) : scan (cs ++ bs) = .ok [.number d.toFloat] := by
  have hnumeral : numeral (cs ++ bs) = (cs, bs) := by
    rw [numeral_append_of_blankAhead (blankAhead_of_blanks hb), numeral_of_ofLiteral? h,
      List.nil_append]
  obtain ⟨mantissa, rest, e, hcs, hne, hmantissa, -⟩ := exists_mantissa h
  obtain ⟨c, mantissa, rfl⟩ := List.exists_cons_of_ne_nil hne
  have hc : isMantissa c = true := hmantissa c List.mem_cons_self
  have hblank : isBlank c = false := by
    cases hblank : isBlank c with
    | false => rfl
    | true =>
      rw [isMantissa_of_isBlank hblank] at hc
      cases hc
  obtain ⟨tail, htext⟩ : ∃ tail, cs ++ bs = c :: tail := ⟨_, by rw [hcs]; rfl⟩
  rw [htext] at hnumeral ⊢
  rw [scan_cons, hblank, if_neg Bool.false_ne_true, ofChar?_of_isMantissa hc]
  dsimp only
  rw [if_pos hc, hnumeral, h]
  dsimp only
  rw [scan_blanks hb]
  rfl

end Expr.Token

/-! ## Literals as expressions -/

/-- A literal is blanks, at most one sign, a literal without sign, and blanks. -/
theorem exists_sign_of_numberLiteral? {cs : List Char} {x : Float} (h : numberLiteral? cs = some x) :
    ∃ as mark u bs d, Blanks as ∧ Blanks bs ∧ cs = as ++ (mark ++ (u ++ bs)) ∧
      Decimal.ofLiteral? u = some d ∧
      ((mark = [] ∨ mark = ['+']) ∧ x = d.toFloat ∨ mark = ['-'] ∧ x = -d.toFloat) := by
  obtain ⟨as, bs, ha, hb, -, hcs⟩ := exists_trim cs
  rw [numberLiteral?] at h
  split at h
  · rename_i u htrim
    obtain ⟨d, hd, rfl⟩ := Option.map_eq_some_iff.1 h
    exact ⟨as, ['+'], u, bs, d, ha, hb, by simpa [htrim] using hcs, hd, .inl ⟨.inr rfl, rfl⟩⟩
  · rename_i u htrim
    obtain ⟨d, hd, rfl⟩ := Option.map_eq_some_iff.1 h
    exact ⟨as, ['-'], u, bs, d, ha, hb, by simpa [htrim] using hcs, hd, .inr ⟨rfl, rfl⟩⟩
  · obtain ⟨d, hd, rfl⟩ := Option.map_eq_some_iff.1 h
    exact ⟨as, [], trim cs, bs, d, ha, hb, by simpa using hcs, hd, .inl ⟨.inl rfl, rfl⟩⟩

/-- A literal is read as an expression, which has its value whatever the variables. -/
theorem exists_parse_of_numberLiteral? {source : String} {x : Float}
    (h : numberLiteral? source.toList = some x) :
    ∃ e, Expr.parse source = .ok e ∧ ∀ vars, e.eval vars = .ok x := by
  obtain ⟨as, mark, u, bs, d, ha, hb, hcs, hd, hmark⟩ := exists_sign_of_numberLiteral? h
  have hliteral := Expr.Token.scan_literal hd hb
  rw [Expr.parse, hcs, Expr.Token.scan_blanks_append ha]
  rcases hmark with ⟨rfl | rfl, rfl⟩ | ⟨rfl, rfl⟩
  · rw [List.nil_append, hliteral]
    exact ⟨.literal d.toFloat, rfl, fun vars => rfl⟩
  · rw [List.singleton_append, Expr.Token.scan_of_ofChar? (by decide) rfl, hliteral]
    exact ⟨.literal d.toFloat, rfl, fun vars => rfl⟩
  · rw [List.singleton_append, Expr.Token.scan_of_ofChar? (by decide) rfl, hliteral]
    exact ⟨.neg (.literal d.toFloat), rfl, fun vars => rfl⟩

/-! ## Evaluation without literals -/

/-- The value of a text that has no blanks at its ends, where no number literals are looked for. -/
def evaluateTrimmedWithoutLiterals (vars : Variables) (cs : List Char) : Value :=
  match quoted? cs with
  | some inner => .text (String.ofList inner)
  | none =>
    let source := String.ofList cs
    match vars.get? source with
    | some value => value
    | none =>
      match arithmetic? vars source with
      | some x => .number x
      | none => .text source

/-- The value of a text, where no number literals are looked for. -/
def evaluateWithoutLiterals (vars : Variables) (source : String) : Value :=
  evaluateTrimmedWithoutLiterals vars (trim source.toList)

theorem arithmetic?_of_numberLiteral? {cs : List Char} {x : Float} (h : numberLiteral? cs = some x)
    (vars : Variables) : arithmetic? vars (String.ofList cs) = some x := by
  rw [← String.toList_ofList (l := cs)] at h
  obtain ⟨e, hparse, heval⟩ := exists_parse_of_numberLiteral? h
  rw [arithmetic?, hparse]
  dsimp only
  rw [heval]
  rfl

theorem evaluateTrimmedWithoutLiterals_eq (vars : Variables) (cs : List Char) :
    evaluateTrimmedWithoutLiterals vars cs = evaluateTrimmed vars cs := by
  rw [evaluateTrimmedWithoutLiterals, evaluateTrimmed]
  cases quoted? cs with
  | some inner => rfl
  | none =>
    dsimp only
    cases vars.get? (String.ofList cs) with
    | some value => rfl
    | none =>
      dsimp only
      cases hliteral : numberLiteral? cs with
      | none => rfl
      | some x => simp only [arithmetic?_of_numberLiteral? hliteral]

/-- **Number literals are expressions.**  A text that is a number literal is read as an expression, and
    the expression has the value of the literal, with whatever variables.  Hence evaluation gives every
    text the same value without its look at literals. -/
theorem literals_are_expressions (source : String) :
    (∀ x, numberLiteral? source.toList = some x →
      ∃ e, Expr.parse source = .ok e ∧ ∀ vars, e.eval vars = .ok x) ∧
    ∀ vars, evaluateWithoutLiterals vars source = evaluate vars source := by
  constructor
  · intro x h
    exact exists_parse_of_numberLiteral? h
  · intro vars
    exact evaluateTrimmedWithoutLiterals_eq vars _

/-- A literal with a sign, no digit before the point, a signed exponent and blanks around it. -/
theorem literals_are_expressions_padded :
    numberLiteral? "\u3000-.5e+3 ".toList = some (-Decimal.toFloat ⟨5, 2⟩) ∧
      ∃ e, Expr.parse "\u3000-.5e+3 " = .ok e ∧
        ∀ vars, e.eval vars = .ok (-Decimal.toFloat ⟨5, 2⟩) := by
  have hliteral : numberLiteral? "\u3000-.5e+3 ".toList = some (-Decimal.toFloat ⟨5, 2⟩) := by rfl
  exact ⟨hliteral, (literals_are_expressions _).1 _ hliteral⟩

end QubitBasic

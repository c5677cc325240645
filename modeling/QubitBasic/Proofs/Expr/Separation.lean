/-
  Blanks separate tokens.

  The scan goes over a text in turns.  One turn (`turn`) drops a blank or takes a token off the start of
  the text, or finds an error there.  It uses up at least one character (`turn_consumes`), so there are
  no more turns than characters, and the loop of turns ends with what `scan` gives (`loop_eq`).

  The crux is how far a turn looks ahead.  A number asks for a mark, a sign and a digit behind its
  mantissa before it takes an exponent, but a blank is none of these; nor does it belong to a name.  So a
  turn takes the same token from a text whatever stands behind a blank after it (`turn_append`), and from
  turn to turn the scan of two texts with a blank between them is the one scan and then the other
  (`scan_append`).
-/
import QubitBasic.Proofs.Expr.Literal

namespace QubitBasic.Expr.Token

open Text

/-- One turn of the scan: the token at the start of a text, if it is no blank, and the text behind it. -/
def turn (c : Char) (cs : List Char) : Except ParseError (Option Token × List Char) :=
  if isBlank c then .ok (none, cs)
  else match ofChar? c with
    | some token => .ok (some token, cs)
    | none =>
      if isMantissa c then
        match Decimal.ofLiteral? (numeral (c :: cs)).1 with
        | none => .error (.badNumber (String.ofList (numeral (c :: cs)).1))
        | some d => .ok (some (.number d.toFloat), (numeral (c :: cs)).2)
      else if isNameStart c then
        .ok (some (.name (String.ofList (c :: cs.takeWhile isNameChar))), cs.dropWhile isNameChar)
      else .error (.unexpectedChar c)

/-- At most `n` turns over a text, with the tokens that they give behind `tokens`; `none` if text is left
    after them. -/
def loop (turn : Char → List Char → Except ParseError (Option Token × List Char)) :
    (n : Nat) → (tokens : List Token) → List Char → Option (Except ParseError (List Token))
  | _, tokens, [] => some (.ok tokens)
  | 0, _, _ :: _ => none
  | n + 1, tokens, c :: cs =>
    match turn c cs with
    | .error e => some (.error e)
    | .ok (token, rest) => loop turn n (tokens ++ token.toList) rest

/-! ## Turns -/

/-- The scan is a turn and the scan of what it leaves. -/
theorem scan_eq_turn (c : Char) (cs : List Char) :
    scan (c :: cs) =
      (turn c cs).bind fun (token, rest) => (scan rest).map (token.toList ++ ·) := by
  rw [scan_cons, turn]
  split
  case isTrue =>
    show scan cs = (scan cs).map ([] ++ ·)
    cases scan cs <;> rfl
  case isFalse =>
    cases ofChar? c with
    | some token => rfl
    | none =>
      dsimp only
      split
      · cases Decimal.ofLiteral? (numeral (c :: cs)).1 <;> rfl
      · split <;> rfl

/-- A turn uses up at least one character. -/
theorem turn_consumes {c : Char} {cs rest : List Char} {token : Option Token}
    (h : turn c cs = .ok (token, rest)) : ∃ used, used ≠ [] ∧ c :: cs = used ++ rest := by
  rw [turn] at h
  split at h
  · obtain ⟨-, rfl⟩ := Prod.mk.inj (Except.ok.inj h)
    exact ⟨[c], List.cons_ne_nil _ _, rfl⟩
  · split at h
    · obtain ⟨-, rfl⟩ := Prod.mk.inj (Except.ok.inj h)
      exact ⟨[c], List.cons_ne_nil _ _, rfl⟩
    · split at h
      · rename_i hmantissa
        split at h
        · cases h
        · obtain ⟨-, rfl⟩ := Prod.mk.inj (Except.ok.inj h)
          refine ⟨(numeral (c :: cs)).1, ?_, (numeral_append (c :: cs)).symm⟩
          simp [numeral, hmantissa]
      · split at h
        · obtain ⟨-, rfl⟩ := Prod.mk.inj (Except.ok.inj h)
          refine ⟨c :: cs.takeWhile isNameChar, List.cons_ne_nil _ _, ?_⟩
          rw [List.cons_append, List.takeWhile_append_dropWhile]
        · cases h

theorem length_lt_of_turn {c : Char} {cs rest : List Char} {token : Option Token}
    (h : turn c cs = .ok (token, rest)) : rest.length < (c :: cs).length := by
  obtain ⟨used, hne, heq⟩ := turn_consumes h
  have hpos := List.length_pos_iff.2 hne
  rw [heq, List.length_append]
  omega

/-- As many turns as there are characters suffice. -/
theorem loop_eq {n : Nat} {cs : List Char} (h : cs.length ≤ n) (tokens : List Token) :
    loop turn n tokens cs = some ((scan cs).map (tokens ++ ·)) := by
  induction n generalizing cs tokens with
  | zero =>
    obtain rfl : cs = [] := List.eq_nil_of_length_eq_zero (Nat.le_zero.1 h)
    rw [loop, scan_nil]
    simp [Except.map]
  | succ n ih =>
    cases cs with
    | nil =>
      rw [loop, scan_nil]
      simp [Except.map]
    | cons c cs =>
      rw [loop, scan_eq_turn]
      cases hturn : turn c cs with
      | error e => rfl
      | ok answer =>
        obtain ⟨token, rest⟩ := answer
        have hlt := length_lt_of_turn hturn
        rw [List.length_cons] at h hlt
        show loop turn n (tokens ++ token.toList) rest =
          some (((scan rest).map (token.toList ++ ·)).map (tokens ++ ·))
        rw [ih (by omega)]
        cases scan rest with
        | error e => rfl
        | ok tail => simp [Except.map]

/-! ## Before a blank -/

theorem isNameChar_of_isBlank {c : Char} (h : isBlank c = true) : isNameChar c = false := by
  cases hname : isNameChar c with
  | false => rfl
  | true =>
    simp only [isBlank, Bool.or_eq_true, Bool.and_eq_true, beq_iff_eq, decide_eq_true_eq] at h
    delta isNameChar Char.isAlphanum Char.isAlpha Char.isUpper Char.isLower Char.isDigit at hname
    simp only [Bool.or_eq_true, Bool.and_eq_true, decide_eq_true_eq, beq_iff_eq,
      UInt32.le_iff_toNat_le, ge_iff_le] at hname
    have hrange : (((65 ≤ c.toNat ∧ c.toNat ≤ 90) ∨ (97 ≤ c.toNat ∧ c.toNat ≤ 122)) ∨
        (48 ≤ c.toNat ∧ c.toNat ≤ 57)) ∨ c.toNat = 95 := hname.imp_right (congrArg Char.toNat)
    omega

/-- A turn does not look past a blank. -/
theorem turn_append {bs : List Char} (hb : BlankAhead bs) (c : Char) (cs : List Char) :
    turn c (cs ++ bs) = (turn c cs).map fun (token, rest) => (token, rest ++ bs) := by
  have hnumeral : numeral (c :: (cs ++ bs)) = _ := numeral_append_of_blankAhead hb (c :: cs)
  have hstop : ∀ d ∈ bs.head?, isNameChar d = false := fun d hd => isNameChar_of_isBlank (hb d hd)
  rw [turn, turn, hnumeral, takeWhile_append_of_stop hstop, dropWhile_append_of_stop hstop]
  split
  · rfl
  · cases ofChar? c with
    | some token => rfl
    | none =>
      dsimp only
      split
      · cases Decimal.ofLiteral? (numeral (c :: cs)).1 <;> rfl
      · split <;> rfl

/-- A text before a blank is scanned for itself. -/
theorem scan_append {bs : List Char} (hb : BlankAhead bs) (as : List Char) :
    scan (as ++ bs) = do return (← scan as) ++ (← scan bs) := by
  induction hlength : as.length using Nat.strongRecOn generalizing as with
  | ind n ih =>
    subst hlength
    cases as with
    | nil =>
      rw [scan_nil]
      show scan bs = (scan bs).map ([] ++ ·)
      cases scan bs <;> rfl
    | cons c cs =>
      rw [List.cons_append, scan_eq_turn, scan_eq_turn, turn_append hb]
      cases hturn : turn c cs with
      | error e => rfl
      | ok answer =>
        obtain ⟨token, rest⟩ := answer
        show (scan (rest ++ bs)).map (token.toList ++ ·) = _
        rw [ih _ (length_lt_of_turn hturn) rest rfl]
        show _ = ((scan rest).map (token.toList ++ ·)).bind _
        cases scan rest with
        | error e => rfl
        | ok tokens =>
          cases scan bs with
          | error e => rfl
          | ok tokens' =>
            show Except.ok (token.toList ++ (tokens ++ tokens')) =
              Except.ok (token.toList ++ tokens ++ tokens')
            rw [List.append_assoc]

/-- **Blanks separate tokens and do nothing else.**  Two texts with a blank between them have the tokens
    of the one and then those of the other, or the error of the first of them that has one.  Every turn of
    the scan uses up some of the text, so there are no more turns than characters. -/
theorem blanks_separate_tokens :
    (∀ (as bs : List Char) (w : Char), isBlank w = true →
      scan (as ++ w :: bs) = do return (← scan as) ++ (← scan bs)) ∧
    (∀ (c : Char) (cs : List Char) (token : Option Token) (rest : List Char),
      turn c cs = .ok (token, rest) → ∃ used, used ≠ [] ∧ c :: cs = used ++ rest) ∧
    (∀ (cs : List Char) (n : Nat), cs.length ≤ n → loop turn n [] cs = some (scan cs)) := by
  refine ⟨fun as bs w hw => ?_, fun c cs token rest h => turn_consumes h, fun cs n h => ?_⟩
  · have hahead : BlankAhead (w :: bs) := by
      rintro c ⟨⟩
      exact hw
    rw [scan_append hahead, scan_cons w bs, if_pos hw]
  · rw [loop_eq h]
    cases scan cs <;> rfl

/-- Neither the mark of an exponent before a blank nor the sign behind it makes a number longer. -/
theorem blanks_separate_tokens_exponent :
    let text := "1.5e".toList ++ '\u3000' :: "+2".toList
    scan text = .ok [.number (Decimal.toFloat ⟨15, -1⟩), .name "e", .operator .add,
        .number (Decimal.toFloat ⟨2, 0⟩)] ∧
      (∃ used, used ≠ [] ∧ "1.5e".toList = used ++ ['e']) ∧
      loop turn 7 [] text = some (scan text) := by
  intro text
  obtain ⟨hseparate, hconsumes, hloop⟩ := blanks_separate_tokens
  have hleft : scan "1.5e".toList = .ok [.number (Decimal.toFloat ⟨15, -1⟩), .name "e"] :=
    Option.some.inj ((hloop _ 4 (by decide)).symm.trans rfl)
  have hright : scan "+2".toList = .ok [.operator .add, .number (Decimal.toFloat ⟨2, 0⟩)] :=
    Option.some.inj ((hloop _ 2 (by decide)).symm.trans rfl)
  have hturn : turn '1' ['.', '5', 'e'] =
      .ok (some (.number (Decimal.toFloat ⟨15, -1⟩)), ['e']) := by rfl
  refine ⟨?_, hconsumes _ _ _ _ hturn, hloop _ 7 (by decide)⟩
  rw [hseparate _ _ _ (by decide), hleft, hright]
  rfl

end QubitBasic.Expr.Token

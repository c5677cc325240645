/-
  Decimals written out.

  A decimal is written out as a numeral, with a second one behind a point if there is a fraction
  (`Written`).  Such a text is a literal, and it is read as the decimal that it writes, with a sign before
  it or without (`Written.numberLiteral?_eq`, `Written.numberLiteral?_minus`).

  Positional digits write a decimal out in one of three ways: zeros fill the places up to the point, the
  point stands among the digits, or zeros fill the places behind the point.  The zeros change the decimal
  only in the first of these, where they take the place of the exponent (`written_positional`).
-/
import Mathlib.Data.List.TakeWhile
import QubitBasic.Proofs.Text.Lines
import QubitBasic.Value

namespace QubitBasic.Decimal

open Text

/-- The text `cs` writes `d` out: a numeral, and behind a point a second one if there is a fraction. -/
inductive Written : List Char → Decimal → Prop
  | whole {ds} : isNumeral ds = true → Written ds ⟨ofDigits ds, 0⟩
  | point {ds part} : isNumeral ds = true → isNumeral part = true →
      Written (ds ++ '.' :: part) ⟨ofDigits (ds ++ part), -part.length⟩

/-! ## Reading -/

namespace Written

variable {cs : List Char} {d : Decimal}

theorem exists_cons (h : Written cs d) : ∃ c cs', cs = c :: cs' ∧ c.isDigit = true := by
  cases h with
  | whole hds => exact exists_cons_of_isNumeral hds
  | point hds hpart =>
    obtain ⟨c, ds, rfl, hc⟩ := exists_cons_of_isNumeral hds
    exact ⟨c, _, rfl, hc⟩

theorem isBlank_of_mem (h : Written cs d) {c : Char} (hc : c ∈ cs) : isBlank c = false := by
  have hdigit {ds : List Char} (hds : isNumeral ds = true) (hc : c ∈ ds) : isBlank c = false :=
    isBlank_of_isDigit ((isNumeral_iff.1 hds).2 c hc)
  cases h with
  | whole hds => exact hdigit hds hc
  | point hds hpart =>
    rcases List.mem_append.1 hc with hc | hc
    · exact hdigit hds hc
    · rcases List.mem_cons.1 hc with rfl | hc
      · decide
      · exact hdigit hpart hc

theorem ofLiteral?_eq (h : Written cs d) : ofLiteral? cs = some d := by
  have hself {ds : List Char} (hds : isNumeral ds = true) :
      ds.takeWhile Char.isDigit = ds ∧ ds.dropWhile Char.isDigit = [] :=
    ⟨List.takeWhile_eq_self_iff.2 (isNumeral_iff.1 hds).2,
      List.dropWhile_eq_nil_iff.2 (isNumeral_iff.1 hds).2⟩
  cases h with
  | whole hds =>
    obtain ⟨htake, hdrop⟩ := hself hds
    rw [ofLiteral?, htake, hdrop]
    simp [fraction, exponent?, (isNumeral_iff.1 hds).1]
  | @point ds part hds hpart =>
    obtain ⟨htake, hdrop⟩ := hself hpart
    have hpoint : ∀ c ∈ ('.' :: part).head?, c.isDigit = false := by
      rintro _ ⟨⟩
      decide
    rw [ofLiteral?, takeWhile_numeral hds hpoint, dropWhile_numeral hds hpoint]
    simp [fraction, exponent?, htake, hdrop, (isNumeral_iff.1 hds).1]

/-- What is written out is read as the double nearest to it. -/
theorem numberLiteral?_eq (h : Written cs d) : numberLiteral? cs = some d.toFloat := by
  have htrim := (trimmed_of_forall fun _ => h.isBlank_of_mem).trim_eq
  have hliteral := h.ofLiteral?_eq
  obtain ⟨c, cs', rfl, hc⟩ := h.exists_cons
  rw [numberLiteral?, htrim]
  split
  · rename_i heq
    obtain rfl := (List.cons.inj heq).1
    exact absurd hc (by decide)
  · rename_i heq
    obtain rfl := (List.cons.inj heq).1
    exact absurd hc (by decide)
  · rw [hliteral]
    rfl

theorem numberLiteral?_minus (h : Written cs d) :
    numberLiteral? ('-' :: cs) = some (-d.toFloat) := by
  have htrimmed : Trimmed ('-' :: cs) := by
    refine trimmed_of_forall fun c hc => ?_
    rcases List.mem_cons.1 hc with rfl | hc
    · decide
    · exact h.isBlank_of_mem hc
  rw [numberLiteral?, htrimmed.trim_eq]
  show (ofLiteral? cs).map (fun d => -d.toFloat) = some (-d.toFloat)
  rw [h.ofLiteral?_eq]
  rfl

end Written

/-! ## Writing -/

theorem written_toDigits (n : Nat) : Written (toDigits n) ⟨n, 0⟩ := by
  have hwritten := Written.whole (isNumeral_toDigits n)
  rwa [ofDigits_toDigits] at hwritten

theorem ofDigits_append (as bs : List Char) :
    ofDigits (as ++ bs) = tenTo bs.length * ofDigits as + ofDigits bs := by
  show Nat.ofDigitChars 10 (as ++ bs) 0 = _
  rw [Nat.ofDigitChars_append, Nat.ofDigitChars_eq_ofDigitChars_zero]
  rfl

/-- A run of zeros. -/
def zeros (k : Nat) : List Char := List.replicate k '0'

theorem ofDigits_zeros (k : Nat) : ofDigits (zeros k) = 0 := Nat.ofDigitChars_replicate_zero

theorem isDigit_of_mem_zeros {k : Nat} {c : Char} (h : c ∈ zeros k) : c.isDigit = true := by
  rw [List.eq_of_mem_replicate h]
  rfl

section Places

variable {ds : List Char}

/-- Zeros fill the places up to the point. -/
theorem written_append_zeros (h : isNumeral ds = true) (e : Nat) :
    Written (ds ++ zeros e) ⟨ofDigits ds * tenTo e, 0⟩ := by
  obtain ⟨hne, hall⟩ := isNumeral_iff.1 h
  have hnumeral : isNumeral (ds ++ zeros e) = true :=
    isNumeral_iff.2 ⟨List.append_ne_nil_of_left_ne_nil hne _, fun c hc =>
      (List.mem_append.1 hc).elim (hall c) isDigit_of_mem_zeros⟩
  have hwritten := Written.whole hnumeral
  rwa [ofDigits_append, ofDigits_zeros, zeros, List.length_replicate, Nat.add_zero,
    Nat.mul_comm] at hwritten

/-- The point stands among the digits. -/
theorem written_take_drop (h : isNumeral ds = true) {k : Nat} (hk : k + 1 < ds.length) :
    Written (ds.take (ds.length - (k + 1)) ++ '.' :: ds.drop (ds.length - (k + 1)))
      ⟨ofDigits ds, .negSucc k⟩ := by
  have hall := (isNumeral_iff.1 h).2
  have hlength : (ds.drop (ds.length - (k + 1))).length = k + 1 := by
    rw [List.length_drop]
    omega
  have hds : isNumeral (ds.take (ds.length - (k + 1))) = true := by
    refine isNumeral_iff.2 ⟨?_, fun c hc => hall c (List.mem_of_mem_take hc)⟩
    rw [← List.length_pos_iff, List.length_take]
    omega
  have hpart : isNumeral (ds.drop (ds.length - (k + 1))) = true := by
    refine isNumeral_iff.2 ⟨?_, fun c hc => hall c (List.mem_of_mem_drop hc)⟩
    rw [← List.length_pos_iff, hlength]
    exact Nat.succ_pos k
  have hwritten := Written.point hds hpart
  rwa [List.take_append_drop, hlength] at hwritten

/-- Zeros fill the places behind the point. -/
theorem written_zeros_append (h : isNumeral ds = true) {k : Nat} (hk : ds.length ≤ k + 1) :
    Written ('0' :: '.' :: (zeros (k + 1 - ds.length) ++ ds)) ⟨ofDigits ds, .negSucc k⟩ := by
  obtain ⟨hne, hall⟩ := isNumeral_iff.1 h
  have hpart : isNumeral (zeros (k + 1 - ds.length) ++ ds) = true :=
    isNumeral_iff.2 ⟨List.append_ne_nil_of_right_ne_nil _ hne, fun c hc =>
      (List.mem_append.1 hc).elim isDigit_of_mem_zeros (hall c)⟩
  have hlength : (zeros (k + 1 - ds.length) ++ ds).length = k + 1 := by
    rw [List.length_append, zeros, List.length_replicate]
    omega
  have hvalue : ofDigits (zeros 1 ++ (zeros (k + 1 - ds.length) ++ ds)) = ofDigits ds := by
    rw [ofDigits_append, ofDigits_append, ofDigits_zeros, ofDigits_zeros, Nat.mul_zero, Nat.mul_zero,
      Nat.zero_add, Nat.zero_add]
  have hwritten : Written (zeros 1 ++ '.' :: (zeros (k + 1 - ds.length) ++ ds)) _ :=
    Written.point rfl hpart
  rwa [hvalue, hlength] at hwritten

end Places

/-- The decimal that positional digits write out, without the zeros that its exponent stands for. -/
def spelled (d : Decimal) : Decimal :=
  match d.exponent with
  | .ofNat e => ⟨d.digits * tenTo e, 0⟩
  | .negSucc _ => d

theorem written_positional (d : Decimal) : Written (d.positional false) d.spelled := by
  obtain ⟨n, e⟩ := d
  have hnumeral := isNumeral_toDigits n
  have hvalue := ofDigits_toDigits n
  cases e with
  | ofNat e =>
    have hwritten := written_append_zeros hnumeral e
    rwa [hvalue, ← List.append_nil (toDigits n ++ zeros e)] at hwritten
  | negSucc k =>
    rw [positional, spelled]
    dsimp only
    split
    case isTrue hlt =>
      have hwritten := written_take_drop hnumeral hlt
      rwa [hvalue] at hwritten
    case isFalse hge =>
      have hwritten := written_zeros_append hnumeral (Nat.le_of_not_lt hge)
      rwa [hvalue] at hwritten

end QubitBasic.Decimal

/-
  Where a condition is cut.

  A mark is a character that comparisons are written with.  A text is `Plain` if quotes are open at every
  mark in it, and it can be cut (`CutsAt`) at a comparison that stands outside quotes, behind a plain text
  and before nothing that would make it longer.  Neither notion refers to the search.  Every text is
  plain or can be cut (`plain_or_cutsAt`).  The search passes over plain text, so it finds nothing in the
  first case and the cut in the second, and there is at most one cut because there is only one answer.

  Quotes are open after an odd number of quote characters, which is how the result is told
  (`split?_finds_earliest`).  The search may as well go over the bytes of the text: it passes over the
  bytes of plain text in the same way and stops at the same place, which lies between two characters.
-/
import Mathlib.Algebra.Ring.Parity
import QubitBasic.Condition
import QubitBasic.Proofs.Text.Bytes
import QubitBasic.Proofs.Text.Quotes

namespace QubitBasic

open Text

/-! ## Counting quotes -/

theorem Text.quotedAfter_not (quoted : Bool) (cs : List Char) :
    quotedAfter (!quoted) cs = !quotedAfter quoted cs := by
  induction cs generalizing quoted with
  | nil => rfl
  | cons c cs ih =>
    rw [quotedAfter_cons, quotedAfter_cons]
    split
    · exact ih (!quoted)
    · exact ih quoted

theorem Text.quotedAfter_eq_false_iff {cs : List Char} :
    quotedAfter false cs = false ↔ Even (cs.count '"') := by
  induction cs with
  | nil => simp
  | cons c cs ih =>
    rw [quotedAfter_cons]
    by_cases hc : c = '"'
    · rw [if_pos hc, quotedAfter_not, hc, List.count_cons_self, Nat.even_add_one, ← ih,
        Bool.not_eq_false, Bool.not_eq_false']
    · rw [if_neg hc, List.count_cons_of_ne hc, ih]

theorem Text.quotedAfter_eq_true_iff {cs : List Char} :
    quotedAfter false cs = true ↔ Odd (cs.count '"') := by
  rw [← Nat.not_even_iff_odd, ← quotedAfter_eq_false_iff, Bool.not_eq_false]

namespace Comparison

/-! ## Marks -/

/-- A character that comparisons are written with. -/
def IsMark (c : Char) : Prop := c = '<' ∨ c = '>' ∨ c = '='

instance (c : Char) : Decidable (IsMark c) := inferInstanceAs (Decidable (_ ∨ _ ∨ _))

/-- What follows `op` does not make it a longer comparison. -/
structure LongestBefore (op : Comparison) (right : List Char) : Prop where
  lt : op = .lt → right.head? ≠ some '>' ∧ right.head? ≠ some '='
  gt : op = .gt → right.head? ≠ some '='

theorem exists_symbol (op : Comparison) : ∃ c cs, op.symbol.toList = c :: cs ∧ IsMark c := by
  cases op with
  | eq => exact ⟨'=', [], rfl, by decide⟩
  | ne => exact ⟨'<', ['>'], rfl, by decide⟩
  | lt => exact ⟨'<', [], rfl, by decide⟩
  | gt => exact ⟨'>', [], rfl, by decide⟩
  | le => exact ⟨'<', ['='], rfl, by decide⟩
  | ge => exact ⟨'>', ['='], rfl, by decide⟩

/-- A comparison starts at every mark. -/
theorem exists_symbol_append {c : Char} (hc : IsMark c) (cs : List Char) :
    ∃ op right, c :: cs = (symbol op).toList ++ right ∧ LongestBefore op right := by
  rcases hc with rfl | rfl | rfl
  · by_cases hgt : cs.head? = some '>'
    · obtain ⟨right, rfl⟩ := List.head?_eq_some_iff.1 hgt
      exact ⟨.ne, right, rfl, nofun, nofun⟩
    by_cases heq : cs.head? = some '='
    · obtain ⟨right, rfl⟩ := List.head?_eq_some_iff.1 heq
      exact ⟨.le, right, rfl, nofun, nofun⟩
    exact ⟨.lt, cs, rfl, fun _ => ⟨hgt, heq⟩, nofun⟩
  · by_cases heq : cs.head? = some '='
    · obtain ⟨right, rfl⟩ := List.head?_eq_some_iff.1 heq
      exact ⟨.ge, right, rfl, nofun, nofun⟩
    exact ⟨.gt, cs, rfl, nofun, fun _ => heq⟩
  · exact ⟨.eq, cs, rfl, nofun, nofun⟩

theorem leading?_symbol_append {op : Comparison} {right : List Char} (h : op.LongestBefore right) :
    leading? (op.symbol.toList ++ right) = some (op, right) := by
  cases op with
  | eq => rfl
  | ne => rfl
  | le => rfl
  | ge => rfl
  | lt =>
    cases right with
    | nil => rfl
    | cons c right =>
      obtain ⟨hgt, heq⟩ := h.lt rfl
      show (if c = '>' then _ else if c = '=' then _ else _) = _
      rw [if_neg fun hc => hgt (congrArg some hc), if_neg fun hc => heq (congrArg some hc)]
  | gt =>
    cases right with
    | nil => rfl
    | cons c right =>
      show (if c = '=' then _ else _) = _
      rw [if_neg fun hc => h.gt rfl (congrArg some hc)]

theorem leading?_of_not_isMark {c : Char} (hc : ¬ IsMark c) (cs : List Char) :
    leading? (c :: cs) = none := by
  show (if c = '=' then _ else if c = '<' then _ else if c = '>' then _ else none) = none
  rw [if_neg fun h => hc (.inr (.inr h)), if_neg fun h => hc (.inl h),
    if_neg fun h => hc (.inr (.inl h))]

end Comparison

namespace Condition

open Comparison

/-! ## Plain text and cuts -/

/-- Quotes are open at every mark. -/
def Plain (quoted : Bool) (cs : List Char) : Prop := ∀ c, IsMark c → Unsplit c quoted cs

/-- The text can be cut at `op`, with `left` before and `right` behind it. -/
structure CutsAt (quoted : Bool) (cs left : List Char) (op : Comparison) (right : List Char) :
    Prop where
  text : cs = left ++ (op.symbol.toList ++ right)
  plain : Plain quoted left
  closed : quotedAfter quoted left = false
  longest : op.LongestBefore right

theorem plain_nil (quoted : Bool) : Plain quoted [] := by
  intro c _ as bs h
  simp at h

theorem plain_cons_iff {quoted : Bool} {c : Char} {cs : List Char} :
    Plain quoted (c :: cs) ↔
      (IsMark c → quoted = true) ∧ Plain (if c = '"' then !quoted else quoted) cs := by
  constructor
  · intro h
    exact ⟨fun hc => h c hc [] cs rfl, fun d hd => (h d hd).tail⟩
  · rintro ⟨hc, h⟩ d hd
    exact (h d hd).cons fun heq => hc (heq ▸ hd)

/-- Every text is plain, or it can be cut. -/
theorem plain_or_cutsAt (quoted : Bool) (cs : List Char) :
    Plain quoted cs ∨ ∃ left op right, CutsAt quoted cs left op right := by
  induction cs generalizing quoted with
  | nil => exact .inl (plain_nil quoted)
  | cons c cs ih =>
    by_cases hc : IsMark c → quoted = true
    · -- Quotes are open here if need be, so it is up to the rest of the text.
      rcases ih (if c = '"' then !quoted else quoted) with hplain | ⟨left, op, right, hcut⟩
      · exact .inl (plain_cons_iff.2 ⟨hc, hplain⟩)
      · refine .inr ⟨c :: left, op, right, ?_, plain_cons_iff.2 ⟨hc, hcut.plain⟩, hcut.closed,
          hcut.longest⟩
        rw [List.cons_append, ← hcut.text]
    · obtain ⟨hmark, hquoted⟩ := Classical.not_imp.1 hc
      obtain ⟨op, right, htext, hlongest⟩ := exists_symbol_append hmark cs
      exact .inr ⟨[], op, right, htext, plain_nil quoted, Bool.not_eq_true _ ▸ hquoted, hlongest⟩

/-! ## The search -/

theorem splitChars?_cons {quoted : Bool} {c : Char} (hc : IsMark c → quoted = true)
    (cs : List Char) :
    splitChars? quoted (c :: cs) =
      (splitChars? (if c = '"' then !quoted else quoted) cs).map fun (left, op, right) =>
        (c :: left, op, right) := by
  have hhere : (if quoted then none else leading? (c :: cs)) = none := by
    cases quoted with
    | true => rfl
    | false => exact leading?_of_not_isMark (fun h => Bool.false_ne_true (hc h)) cs
  rw [splitChars?, hhere]

/-- The search passes over plain text. -/
theorem Plain.splitChars?_append {quoted : Bool} {left : List Char} (h : Plain quoted left)
    (rest : List Char) :
    splitChars? quoted (left ++ rest) =
      (splitChars? (quotedAfter quoted left) rest).map fun (middle, op, right) =>
        (left ++ middle, op, right) := by
  induction left generalizing quoted with
  | nil => simp
  | cons c left ih =>
    obtain ⟨hc, hleft⟩ := plain_cons_iff.1 h
    rw [List.cons_append, splitChars?_cons hc, ih hleft, Option.map_map, quotedAfter_cons]
    rfl

theorem splitChars?_symbol_append {op : Comparison} {right : List Char}
    (h : op.LongestBefore right) :
    splitChars? false (op.symbol.toList ++ right) = some ([], op, right) := by
  obtain ⟨c, cs, hsymbol, -⟩ := exists_symbol op
  have hleading := leading?_symbol_append h
  rw [hsymbol, List.cons_append] at hleading ⊢
  rw [splitChars?]
  simp only [Bool.false_eq_true, if_false, hleading]

theorem Plain.splitChars?_eq {quoted : Bool} {cs : List Char} (h : Plain quoted cs) :
    splitChars? quoted cs = none := by
  have hpass := h.splitChars?_append []
  rwa [List.append_nil] at hpass

theorem CutsAt.splitChars?_eq {quoted : Bool} {cs left right : List Char} {op : Comparison}
    (h : CutsAt quoted cs left op right) : splitChars? quoted cs = some (left, op, right) := by
  rw [h.text, h.plain.splitChars?_append, h.closed, splitChars?_symbol_append h.longest]
  simp

theorem splitChars?_eq_some_iff {quoted : Bool} {cs left right : List Char} {op : Comparison} :
    splitChars? quoted cs = some (left, op, right) ↔ CutsAt quoted cs left op right := by
  refine ⟨fun h => ?_, CutsAt.splitChars?_eq⟩
  rcases plain_or_cutsAt quoted cs with hplain | ⟨left', op', right', hcut⟩
  · rw [hplain.splitChars?_eq] at h
    cases h
  · obtain ⟨rfl, rfl, rfl⟩ : left' = left ∧ op' = op ∧ right' = right := by
      simpa using hcut.splitChars?_eq.symm.trans h
    exact hcut

theorem splitChars?_eq_none_iff {quoted : Bool} {cs : List Char} :
    splitChars? quoted cs = none ↔ Plain quoted cs := by
  refine ⟨fun h => ?_, Plain.splitChars?_eq⟩
  rcases plain_or_cutsAt quoted cs with hplain | ⟨left, op, right, hcut⟩
  · exact hplain
  · rw [hcut.splitChars?_eq] at h
    cases h

/-! ## The search over bytes -/

/-- The longest comparison that starts with the byte `b` before `next`. -/
def leadingByte? (b : UInt8) (next : Option UInt8) : Option Comparison :=
  if b = '='.toUInt8 then some .eq
  else if b = '<'.toUInt8 then
    if next = some '>'.toUInt8 then some .ne
    else if next = some '='.toUInt8 then some .le
    else some .lt
  else if b = '>'.toUInt8 then if next = some '='.toUInt8 then some .ge else some .gt
  else none

/-- The number of bytes before the earliest comparison outside quotes, and the comparison. -/
def searchBytes? : (quoted : Bool) → List UInt8 → Option (Nat × Comparison)
  | _, [] => none
  | quoted, b :: bs =>
    match if quoted then none else leadingByte? b bs.head? with
    | some op => some (0, op)
    | none =>
      (searchBytes? (if b = '"'.toUInt8 then !quoted else quoted) bs).map fun (i, op) => (i + 1, op)

theorem leadingByte?_eq_none {b : UInt8} (h : ∀ d, IsMark d → d.toUInt8 ≠ b)
    (next : Option UInt8) : leadingByte? b next = none := by
  rw [leadingByte?, if_neg fun hb => h '=' (by decide) hb.symm,
    if_neg fun hb => h '<' (by decide) hb.symm, if_neg fun hb => h '>' (by decide) hb.symm]

/-- The search passes over bytes that are neither quotes nor marks outside quotes. -/
theorem searchBytes?_append {quoted : Bool} {as : List UInt8} (hquote : '"'.toUInt8 ∉ as)
    (hmarks : quoted = true ∨ ∀ d, IsMark d → d.toUInt8 ∉ as) (bs : List UInt8) :
    searchBytes? quoted (as ++ bs) =
      (searchBytes? quoted bs).map fun (i, op) => (i + as.length, op) := by
  induction as with
  | nil => simp
  | cons a as ih =>
    have hhere : (if quoted then none else leadingByte? a (as ++ bs).head?) = none := by
      rcases hmarks with rfl | hmarks
      · rfl
      · rw [leadingByte?_eq_none fun d hd heq => hmarks d hd (heq ▸ List.mem_cons_self)]
        exact ite_self none
    have hrest := ih (fun h => hquote (List.mem_cons_of_mem a h))
      (hmarks.imp_right fun h d hd hmem => h d hd (List.mem_cons_of_mem a hmem))
    have ha : a ≠ '"'.toUInt8 := fun h => hquote (h ▸ List.mem_cons_self)
    rw [List.cons_append, searchBytes?, hhere]
    simp only [if_neg ha, hrest, Option.map_map]
    rfl

theorem searchBytes?_char {quoted : Bool} {c : Char} (hc : IsMark c → quoted = true)
    (bs : List UInt8) :
    searchBytes? quoted (String.utf8EncodeChar c ++ bs) =
      (searchBytes? (if c = '"' then !quoted else quoted) bs).map fun (i, op) =>
        (i + (String.utf8EncodeChar c).length, op) := by
  by_cases hquote : c = '"'
  · subst hquote
    have hhere : (if quoted then none else leadingByte? '"'.toUInt8 bs.head?) = none :=
      ite_eq_left_iff.2 fun _ => rfl
    show searchBytes? quoted ('"'.toUInt8 :: bs) = _
    rw [searchBytes?, hhere]
    rfl
  · rw [if_neg hquote]
    refine searchBytes?_append (fun h => hquote ((mem_utf8EncodeChar_iff (by decide)).1 h)) ?_ bs
    cases quoted with
    | true => exact .inl rfl
    | false =>
      refine .inr fun d hd hmem => ?_
      have hascii : d.toNat < 128 := by rcases hd with rfl | rfl | rfl <;> decide
      obtain rfl := (mem_utf8EncodeChar_iff hascii).1 hmem
      exact Bool.false_ne_true (hc hd)

/-- The search passes over the bytes of plain text. -/
theorem Plain.searchBytes?_append {quoted : Bool} {left : List Char} (h : Plain quoted left)
    (bs : List UInt8) :
    searchBytes? quoted (bytes left ++ bs) =
      (searchBytes? (quotedAfter quoted left) bs).map fun (i, op) =>
        (i + (bytes left).length, op) := by
  induction left generalizing quoted with
  | nil => simp
  | cons c left ih =>
    obtain ⟨hc, hleft⟩ := plain_cons_iff.1 h
    rw [bytes_cons, List.append_assoc, searchBytes?_char hc, ih hleft, Option.map_map,
      quotedAfter_cons, List.length_append]
    congr 1
    funext ⟨i, op⟩
    simp only [Function.comp_apply, Prod.mk.injEq, and_true]
    omega

theorem searchBytes?_of_leadingByte? {b : UInt8} {bs : List UInt8} {op : Comparison}
    (h : leadingByte? b bs.head? = some op) : searchBytes? false (b :: bs) = some (0, op) := by
  rw [searchBytes?]
  simp only [Bool.false_eq_true, if_false, h]

theorem searchBytes?_symbol_append {op : Comparison} {right : List Char}
    (h : op.LongestBefore right) :
    searchBytes? false (bytes (op.symbol.toList ++ right)) = some (0, op) := by
  cases op with
  | eq => rfl
  | ne => rfl
  | le => rfl
  | ge => rfl
  | lt =>
    obtain ⟨hgt, heq⟩ := h.lt rfl
    show searchBytes? false ('<'.toUInt8 :: bytes right) = _
    refine searchBytes?_of_leadingByte? ?_
    show (if (bytes right).head? = _ then _ else if (bytes right).head? = _ then _ else _) = _
    rw [if_neg fun hhead => hgt (head?_bytes (by decide) hhead),
      if_neg fun hhead => heq (head?_bytes (by decide) hhead)]
  | gt =>
    show searchBytes? false ('>'.toUInt8 :: bytes right) = _
    refine searchBytes?_of_leadingByte? ?_
    show (if (bytes right).head? = _ then _ else _) = _
    rw [if_neg fun hhead => h.gt rfl (head?_bytes (by decide) hhead)]

/-- The search over the bytes of a text ends where the search over its characters does. -/
theorem searchBytes?_bytes (quoted : Bool) (cs : List Char) :
    searchBytes? quoted (bytes cs) =
      (splitChars? quoted cs).map fun (left, op, _) => ((bytes left).length, op) := by
  rcases plain_or_cutsAt quoted cs with hplain | ⟨left, op, right, hcut⟩
  · have hpass := hplain.searchBytes?_append []
    rw [List.append_nil] at hpass
    rw [hplain.splitChars?_eq, hpass]
    rfl
  · rw [hcut.splitChars?_eq, hcut.text, bytes_append, hcut.plain.searchBytes?_append, hcut.closed,
      searchBytes?_symbol_append hcut.longest]
    simp

/-! ## Conditions -/

/-- Every mark is preceded by an odd number of quotes. -/
def Covered (text : String) : Prop :=
  ∀ before c after, text.toList = before ++ c :: after → IsMark c → Odd (before.count '"')

/-- A side of a condition: quotes are closed at its end, and there is no mark outside them. -/
structure Side (text : String) : Prop where
  closed : Even (text.toList.count '"')
  covered : Covered text

/-- The condition is a side, a comparison and the rest, and the rest does not make the comparison
    longer. -/
structure Splits (condition left : String) (op : Comparison) (right : String) : Prop where
  text : condition = left ++ op.symbol ++ right
  side : Side left
  longest : op.LongestBefore right.toList

theorem covered_iff {text : String} : Covered text ↔ Plain false text.toList := by
  constructor
  · intro h c hc as bs htext
    exact quotedAfter_eq_true_iff.2 (h as c bs htext hc)
  · intro h as c bs htext hc
    exact quotedAfter_eq_true_iff.1 (h c hc as bs htext)

theorem splits_iff {condition left right : String} {op : Comparison} :
    Splits condition left op right ↔
      CutsAt false condition.toList left.toList op right.toList := by
  constructor
  · rintro ⟨rfl, ⟨hclosed, hcovered⟩, hlongest⟩
    exact ⟨by simp, covered_iff.1 hcovered, quotedAfter_eq_false_iff.2 hclosed, hlongest⟩
  · rintro ⟨htext, hplain, hclosed, hlongest⟩
    refine ⟨?_, ⟨quotedAfter_eq_false_iff.1 hclosed, covered_iff.2 hplain⟩, hlongest⟩
    rw [← String.toList_inj, htext]
    simp

theorem split?_eq_some_iff {condition left right : String} {op : Comparison} :
    split? condition = some (left, op, right) ↔ Splits condition left op right := by
  rw [splits_iff, ← splitChars?_eq_some_iff, split?]
  constructor
  · intro h
    obtain ⟨⟨cs, op', ds⟩, hsplit, heq⟩ := Option.map_eq_some_iff.1 h
    obtain ⟨rfl, rfl, rfl⟩ : String.ofList cs = left ∧ op' = op ∧ String.ofList ds = right := by
      simpa using heq
    simpa using hsplit
  · intro h
    simp [h]

theorem split?_eq_none_iff {condition : String} : split? condition = none ↔ Covered condition := by
  rw [covered_iff, ← splitChars?_eq_none_iff, split?, Option.map_eq_none_iff]

/-- The bytes of a condition are searched with the same result as its characters. -/
theorem searchBytes?_toUTF8 (condition : String) :
    searchBytes? false condition.toUTF8.data.toList =
      (split? condition).map fun (left, op, _) => (left.utf8ByteSize, op) := by
  rw [← bytes_toList, searchBytes?_bytes, split?, Option.map_map]
  congr 1
  funext ⟨left, op, right⟩
  simp [← length_bytes_toList]

/-- A condition is cut between characters. -/
theorem Splits.isValid {condition left right : String} {op : Comparison}
    (h : Splits condition left op right) :
    (String.Pos.Raw.mk left.utf8ByteSize).IsValid condition ∧
      (String.Pos.Raw.mk (left.utf8ByteSize + op.symbol.utf8ByteSize)).IsValid condition := by
  obtain rfl := h.text
  constructor
  · exact String.Pos.Raw.isValid_iff_exists_append.2
      ⟨left, op.symbol ++ right, String.append_assoc, rfl⟩
  · refine String.Pos.Raw.isValid_iff_exists_append.2 ⟨left ++ op.symbol, right, rfl, ?_⟩
    rw [← String.utf8ByteSize_append]
    rfl

/-- **A condition is cut at the earliest comparison outside quotes, and at the longest one there.**
    There is no cut exactly if every mark follows an odd number of quotes; otherwise the condition is
    the left side, the comparison and the right side, with nothing lost, and in no other way.  The search
    gives the same answer on the bytes of the condition, and both sides end between two characters. -/
theorem split?_finds_earliest (condition : String) :
    (split? condition = none ↔ Covered condition) ∧
    (∀ left op right,
      split? condition = some (left, op, right) ↔ Splits condition left op right) ∧
    (∀ left op right left' op' right', Splits condition left op right →
      Splits condition left' op' right' → left = left' ∧ op = op' ∧ right = right') ∧
    (searchBytes? false condition.toUTF8.data.toList =
      (split? condition).map fun (left, op, _) => (left.utf8ByteSize, op)) ∧
    (∀ left op right, split? condition = some (left, op, right) →
      (String.Pos.Raw.mk left.utf8ByteSize).IsValid condition ∧
      (String.Pos.Raw.mk (left.utf8ByteSize + op.symbol.utf8ByteSize)).IsValid condition) := by
  refine ⟨split?_eq_none_iff, fun left op right => split?_eq_some_iff, ?_,
    searchBytes?_toUTF8 condition, fun left op right h => (split?_eq_some_iff.1 h).isValid⟩
  intro left op right left' op' right' h h'
  simpa using (split?_eq_some_iff.2 h).symm.trans (split?_eq_some_iff.2 h')

/-- Marks in quotes, characters of several bytes on both sides, and a comparison with a mark behind it. -/
theorem split?_finds_earliest_among_marks :
    split? "\"é<\" ü<>=\u3000" = some ("\"é<\" ü", .ne, "=\u3000") ∧
      Splits "\"é<\" ü<>=\u3000" "\"é<\" ü" .ne "=\u3000" ∧
      searchBytes? false "\"é<\" ü<>=\u3000".toUTF8.data.toList = some (8, .ne) := by
  have hsplit : split? "\"é<\" ü<>=\u3000" = some ("\"é<\" ü", .ne, "=\u3000") := by rfl
  obtain ⟨-, hsplits, -, hbytes, -⟩ := split?_finds_earliest "\"é<\" ü<>=\u3000"
  refine ⟨hsplit, (hsplits _ _ _).1 hsplit, ?_⟩
  rw [hbytes, hsplit]
  rfl

end Condition

end QubitBasic

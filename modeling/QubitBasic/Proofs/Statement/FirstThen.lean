/-
  The first word `THEN` outside quotes, in bytes.

  `CutsAtThen` describes a place where a text can be cut in terms of the text alone: the four letters in
  any case, an even number of quotes before them, and the start or the end of the text or the byte of a
  delimiter on either side.  This is `ThenAt` with its notions counted out (`cutsAtThen_iff`), so the first
  such place is found, and nothing only if there is none.

  The search may as well go over the bytes.  Within a character beyond ASCII no byte is a quote, a letter
  or a delimiter, so such bytes are passed over and the search finds the place it finds among characters
  (`searchThen?_bytes`).  Nor does it matter whether it is hasty and gives up where fewer than four bytes
  are left outside quotes: the word does not fit there any more (`searchThen?_hasty`).
-/
import Mathlib.Data.List.Induction
import Mathlib.Data.Nat.Find
import QubitBasic.Proofs.Condition.Split
import QubitBasic.Proofs.Statement.Then

namespace QubitBasic.Statement

open Text

/-! ## Bytes -/

/-- The bytes of tab, line feed, form feed, carriage return and space. -/
def delimiterBytes : List UInt8 := [0x09, 0x0A, 0x0C, 0x0D, 0x20]

/-- A byte with the letters of ASCII in upper case. -/
def upperByte (b : UInt8) : UInt8 := if 0x61 ≤ b ∧ b ≤ 0x7A then b - 0x20 else b

/-- The word `THEN` stands at the start of the bytes, in any case, and behind it nothing or a
    delimiter. -/
def startsThen (bs : List UInt8) : Bool :=
  (bs.take 4).map upperByte == bytes "THEN".toList && (bs.drop 4).head?.all (· ∈ delimiterBytes)

/-- The number of bytes before the first word `THEN` outside quotes.  A hasty search gives up at a byte
    that is no quote, outside quotes, when fewer than four bytes are left. -/
def searchThen? (hasty : Bool) : (boundary quoted : Bool) → List UInt8 → Option Nat
  | _, _, [] => none
  | boundary, quoted, b :: bs =>
    if b = '"'.toUInt8 then (searchThen? hasty false (!quoted) bs).map (· + 1)
    else if hasty && !quoted && (b :: bs).length < 4 then none
    else if !quoted && boundary && startsThen (b :: bs) then some 0
    else (searchThen? hasty (b ∈ delimiterBytes) quoted bs).map (· + 1)

/-! ## Hasty searches -/

theorem length_of_startsThen {bs : List UInt8} (h : startsThen bs = true) : 4 ≤ bs.length := by
  have hword := beq_iff_eq.1 (Bool.and_eq_true_iff.1 h).1
  have hlength := congrArg List.length hword
  rw [List.length_map, List.length_take] at hlength
  have hfour : (bytes "THEN".toList).length = 4 := rfl
  omega

/-- The word does not fit into three bytes. -/
theorem searchThen?_of_length_lt {hasty boundary quoted : Bool} {bs : List UInt8}
    (h : bs.length < 4) : searchThen? hasty boundary quoted bs = none := by
  induction bs generalizing boundary quoted with
  | nil => rfl
  | cons b bs ih =>
    have htail : bs.length < 4 := Nat.lt_of_succ_lt h
    have hnot : startsThen (b :: bs) ≠ true := fun hstarts => by
      have hlength := length_of_startsThen hstarts
      omega
    rw [searchThen?]
    split
    · rw [ih htail]
      rfl
    · split
      · rfl
      · rw [if_neg fun hcond => hnot (Bool.and_eq_true_iff.1 hcond).2, ih htail]
        rfl

/-- Haste misses nothing. -/
theorem searchThen?_hasty (hasty boundary quoted : Bool) (bs : List UInt8) :
    searchThen? hasty boundary quoted bs = searchThen? false boundary quoted bs := by
  induction bs generalizing boundary quoted with
  | nil => rfl
  | cons b bs ih =>
    by_cases hshort : (b :: bs).length < 4
    · rw [searchThen?_of_length_lt hshort, searchThen?_of_length_lt hshort]
    · simp only [searchThen?, ih, hshort, decide_false, Bool.and_false, Bool.false_and]

/-! ## Characters and their bytes -/

theorem not_mem_delimiterBytes {b : UInt8} (h : 128 ≤ b.toNat) : b ∉ delimiterBytes := by
  intro hmem
  simp only [delimiterBytes, List.mem_cons, List.not_mem_nil, or_false] at hmem
  rcases hmem with rfl | rfl | rfl | rfl | rfl <;> exact absurd h (by decide)

theorem toUInt8_mem_delimiterBytes_iff {c : Char} (h : c.toNat < 128) :
    c.toUInt8 ∈ delimiterBytes ↔ isDelimiter c = true := by
  simp only [delimiterBytes, List.mem_cons, List.not_mem_nil, or_false, isDelimiter,
    Bool.or_eq_true, beq_iff_eq, ← UInt8.toNat_inj, toNat_toUInt8 h]
  exact or_assoc.symm.trans (or_assoc.symm.trans or_assoc.symm)

theorem upperByte_of_le {b : UInt8} (h : 128 ≤ b.toNat) : upperByte b = b := by
  rw [upperByte, if_neg]
  rintro ⟨-, hle⟩
  have hle' := UInt8.le_iff_toNat_le.1 hle
  have hlast : (0x7A : UInt8).toNat = 122 := rfl
  omega

theorem upperByte_toUInt8 {c : Char} (h : c.toNat < 128) :
    [upperByte c.toUInt8] = String.utf8EncodeChar c.toUpper := by
  have hascii : ∀ n < 128, [upperByte (Char.ofNat n).toUInt8] =
      String.utf8EncodeChar (Char.ofNat n).toUpper := by
    decide
  have hc := hascii c.toNat h
  rwa [Char.ofNat_toNat] at hc

/-- The letters of ASCII are put in upper case byte by byte. -/
theorem map_upperByte_bytes (cs : List Char) :
    (bytes cs).map upperByte = bytes (cs.map Char.toUpper) := by
  induction cs with
  | nil => rfl
  | cons c cs ih =>
    rw [bytes_cons, List.map_append, ih, List.map_cons, bytes_cons]
    congr 1
    rcases utf8EncodeChar_cases c with ⟨hc, hbytes⟩ | ⟨hc, hbytes⟩
    · rw [hbytes, ← upperByte_toUInt8 hc]
      rfl
    · have hupper : c.toUpper = c := by
        refine dif_neg ?_
        rintro ⟨-, hle⟩
        have hle' := UInt32.le_iff_toNat_le.1 hle
        have hval : c.val.toNat = c.toNat := rfl
        have hlast : 'z'.val.toNat = 122 := rfl
        omega
      rw [hupper]
      exact (List.map_congr_left fun b hb => upperByte_of_le (hbytes b hb)).trans (List.map_id' _)

/-- All bytes of a character are those of delimiters, or none is. -/
theorem mem_delimiterBytes_iff {b : UInt8} {c : Char} (h : b ∈ String.utf8EncodeChar c) :
    b ∈ delimiterBytes ↔ isDelimiter c = true := by
  rcases utf8EncodeChar_cases c with ⟨hc, hbytes⟩ | ⟨hc, hbytes⟩
  · rw [hbytes, List.mem_singleton] at h
    rw [h, toUInt8_mem_delimiterBytes_iff hc]
  · refine ⟨fun hmem => absurd hmem (not_mem_delimiterBytes (hbytes b h)), fun hdelimiter => ?_⟩
    simp only [isDelimiter, Bool.or_eq_true, beq_iff_eq] at hdelimiter
    omega

theorem head?_bytes_delimiter (cs : List Char) :
    ((bytes cs).head?.all (· ∈ delimiterBytes)) = cs.head?.all isDelimiter := by
  cases cs with
  | nil => rfl
  | cons c cs =>
    obtain ⟨b, bs, hbytes⟩ := List.exists_cons_of_ne_nil (String.utf8EncodeChar_ne_nil (c := c))
    have hmem : b ∈ String.utf8EncodeChar c := hbytes ▸ List.mem_cons_self
    rw [bytes_cons, hbytes]
    show decide (b ∈ delimiterBytes) = isDelimiter c
    rw [Bool.eq_iff_iff, decide_eq_true_iff, mem_delimiterBytes_iff hmem]

theorem getLast?_bytes_delimiter (cs : List Char) :
    ((bytes cs).getLast?.all (· ∈ delimiterBytes)) = cs.getLast?.all isDelimiter := by
  induction cs using List.reverseRecOn with
  | nil => rfl
  | append_singleton cs c =>
    have hne := String.utf8EncodeChar_ne_nil (c := c)
    have hlast : (bytes (cs ++ [c])).getLast? = some ((String.utf8EncodeChar c).getLast hne) := by
      rw [bytes_append, bytes_cons, bytes_nil, List.append_nil, List.getLast?_append,
        List.getLast?_eq_some_getLast hne]
      rfl
    rw [hlast, List.getLast?_concat]
    show decide (_ ∈ delimiterBytes) = isDelimiter c
    rw [Bool.eq_iff_iff, decide_eq_true_iff, mem_delimiterBytes_iff (List.getLast_mem hne)]

/-! ## The search over bytes -/

theorem length_bytes_of_upper_eq_then {word : List Char} (h : upper word = "THEN") :
    (bytes word).length = 4 := by
  have hlength := congrArg List.length (map_upperByte_bytes word)
  rw [List.length_map, upper_eq_then_iff.1 h] at hlength
  exact hlength

/-- The word stands at the start of the bytes exactly if it stands at the start of the text. -/
theorem startsThen_bytes_iff {cs : List Char} :
    startsThen (bytes cs) = true ↔ ∃ rest, afterThen? cs = some rest := by
  rw [startsThen, Bool.and_eq_true, beq_iff_eq]
  constructor
  · rintro ⟨hword, hends⟩
    have hascii : ∀ a ∈ (bytes cs).take 4, a.toNat < 128 := by
      intro a ha
      by_contra hlarge
      have hmem : upperByte a ∈ bytes "THEN".toList := hword ▸ List.mem_map_of_mem ha
      rw [upperByte_of_le (Nat.le_of_not_lt hlarge)] at hmem
      have hall : (bytes "THEN".toList).all (·.toNat < 128) = true := rfl
      exact hlarge (of_decide_eq_true (List.all_eq_true.1 hall a hmem))
    obtain ⟨word, rest, rfl, htake, hdrop⟩ :=
      exists_append_of_bytes hascii (List.take_append_drop 4 (bytes cs)).symm
    rw [← htake, map_upperByte_bytes] at hword
    rw [← hdrop, head?_bytes_delimiter] at hends
    exact ⟨rest, afterThen?_eq_some_iff.2
      ⟨⟨word, upper_eq_then_iff.2 (bytes_injective hword), rfl⟩, hends⟩⟩
  · rintro ⟨rest, hafter⟩
    obtain ⟨⟨word, hword, rfl⟩, hends⟩ := afterThen?_eq_some_iff.1 hafter
    have hlength := length_bytes_of_upper_eq_then hword
    rw [bytes_append, List.take_left' hlength, List.drop_left' hlength, map_upperByte_bytes,
      upper_eq_then_iff.1 hword, head?_bytes_delimiter]
    exact ⟨rfl, hends⟩

theorem startsThen_of_le {b : UInt8} (h : 128 ≤ b.toNat) (bs : List UInt8) :
    startsThen (b :: bs) = false := by
  have hne : upperByte b ≠ 'T'.toUInt8 := by
    rw [upperByte_of_le h]
    rintro rfl
    exact absurd h (by decide)
  rw [startsThen, Bool.and_eq_false_iff]
  refine .inl (beq_false_of_ne fun hword => hne ?_)
  exact (List.cons.inj hword).1

theorem searchThen?_cons_of_le {b : UInt8} (h : 128 ≤ b.toNat) (boundary quoted : Bool)
    (bs : List UInt8) :
    searchThen? false boundary quoted (b :: bs) =
      (searchThen? false false quoted bs).map (· + 1) := by
  have hquote : b ≠ '"'.toUInt8 := by
    rintro rfl
    exact absurd h (by decide)
  rw [searchThen?, if_neg hquote]
  simp [startsThen_of_le h, not_mem_delimiterBytes h]

/-- The search passes over bytes beyond ASCII. -/
theorem searchThen?_append {a : UInt8} {as : List UInt8} (h : ∀ b ∈ a :: as, 128 ≤ b.toNat)
    (boundary quoted : Bool) (bs : List UInt8) :
    searchThen? false boundary quoted (a :: as ++ bs) =
      (searchThen? false false quoted bs).map (· + (a :: as).length) := by
  induction as generalizing a boundary with
  | nil => exact searchThen?_cons_of_le (h a List.mem_cons_self) boundary quoted bs
  | cons a' as ih =>
    rw [List.cons_append, searchThen?_cons_of_le (h a List.mem_cons_self),
      ih fun b hb => h b (List.mem_cons_of_mem a hb), Option.map_map]
    rfl

/-- The search goes on behind a character at which it finds nothing. -/
theorem searchThen?_char {boundary quoted : Bool} {c : Char} {bs : List UInt8}
    (h : (!quoted && boundary && startsThen (String.utf8EncodeChar c ++ bs)) = false) :
    searchThen? false boundary quoted (String.utf8EncodeChar c ++ bs) =
      (searchThen? false (isDelimiter c) (if c = '"' then !quoted else quoted) bs).map
        (· + (String.utf8EncodeChar c).length) := by
  rcases utf8EncodeChar_cases c with ⟨hc, hbytes⟩ | ⟨hc, hbytes⟩
  · rw [hbytes, List.singleton_append] at h ⊢
    have hdelimiter : decide (c.toUInt8 ∈ delimiterBytes) = isDelimiter c := by
      rw [Bool.eq_iff_iff, decide_eq_true_iff, toUInt8_mem_delimiterBytes_iff hc]
    rw [searchThen?]
    by_cases hquote : c = '"'
    · subst hquote
      rfl
    · have hbyte : c.toUInt8 ≠ '"'.toUInt8 := fun heq =>
        hquote ((mem_utf8EncodeChar_iff (by decide)).1 (by rw [hbytes, heq]; exact List.mem_cons_self))
      rw [if_neg hbyte, if_neg hquote, h, hdelimiter]
      rfl
  · have hquote : c ≠ '"' := by
      rintro rfl
      exact absurd hc (by decide)
    have hdelimiter : isDelimiter c = false := by
      simp only [isDelimiter, Bool.or_eq_false_iff, beq_eq_false_iff_ne]
      omega
    obtain ⟨a, as, hchar⟩ := List.exists_cons_of_ne_nil (String.utf8EncodeChar_ne_nil (c := c))
    rw [hchar] at hbytes ⊢
    rw [searchThen?_append hbytes, if_neg hquote, hdelimiter]

theorem searchThen?_of_startsThen {bs : List UInt8} (h : startsThen bs = true) :
    searchThen? false true false bs = some 0 := by
  cases bs with
  | nil => cases h
  | cons b bs =>
    have hquote : b ≠ '"'.toUInt8 := by
      rintro rfl
      cases h
    rw [searchThen?, if_neg hquote]
    simp [h]

/-- The search over the bytes of a text ends where the search over its characters does. -/
theorem searchThen?_bytes (boundary quoted : Bool) (cs : List Char) :
    searchThen? false boundary quoted (bytes cs) =
      (splitThen? boundary quoted cs).map fun sides => (bytes sides.1).length := by
  induction cs generalizing boundary quoted with
  | nil => rfl
  | cons c cs ih =>
    rw [splitThen?]
    by_cases hhere : (!quoted && boundary && startsThen (bytes (c :: cs))) = true
    · -- The word stands right here.
      obtain ⟨hplace, hstarts⟩ := Bool.and_eq_true_iff.1 hhere
      obtain ⟨hquoted, rfl⟩ := Bool.and_eq_true_iff.1 hplace
      obtain rfl : quoted = false := by simpa using hquoted
      obtain ⟨rest, hafter⟩ := startsThen_bytes_iff.1 hstarts
      rw [searchThen?_of_startsThen hstarts, hafter]
      rfl
    · have hnone : (if boundary && !quoted then afterThen? (c :: cs) else none) = none := by
        cases hafter : afterThen? (c :: cs) with
        | none => exact ite_self none
        | some rest =>
          rw [startsThen_bytes_iff.2 ⟨rest, hafter⟩, Bool.and_true, Bool.and_comm] at hhere
          exact if_neg hhere
      rw [hnone, bytes_cons, searchThen?_char (Bool.not_eq_true _ ▸ hhere), ih, Option.map_map,
        Option.map_map]
      congr 1
      funext sides
      show (bytes sides.1).length + _ = (String.utf8EncodeChar c ++ bytes sides.1).length
      rw [List.length_append]
      omega

/-! ## The first place -/

/-- A text can be cut at a word `THEN` between `before` and `behind`. -/
structure CutsAtThen (text before behind : String) : Prop where
  word : ∃ word : String, upper word.toList = "THEN" ∧ text = before ++ word ++ behind
  closed : Even (before.toList.count '"')
  starts : ∀ b ∈ before.toUTF8.data.toList.getLast?, b ∈ delimiterBytes
  ends : ∀ b ∈ behind.toUTF8.data.toList.head?, b ∈ delimiterBytes

theorem cutsAtThen_iff {text before behind : String} :
    CutsAtThen text before behind ↔
      ThenAt true false text.toList before.toList behind.toList := by
  have hstarts : (∀ b ∈ before.toUTF8.data.toList.getLast?, b ∈ delimiterBytes) ↔
      (before.toList.getLast?.map isDelimiter).getD true = true := by
    rw [starts_eq_all, ← getLast?_bytes_delimiter, bytes_toList]
    simp [Option.all_eq_true]
  have hends : (∀ b ∈ behind.toUTF8.data.toList.head?, b ∈ delimiterBytes) ↔
      behind.toList.head?.all isDelimiter = true := by
    rw [← head?_bytes_delimiter, bytes_toList]
    simp [Option.all_eq_true]
  constructor
  · rintro ⟨⟨word, hword, rfl⟩, hclosed, hs, he⟩
    exact ⟨⟨word.toList, hword, by simp⟩, quotedAfter_eq_false_iff.2 hclosed, hstarts.1 hs,
      hends.1 he⟩
  · rintro ⟨⟨word, hword, htext⟩, hunquoted, hs, he⟩
    refine ⟨⟨String.ofList word, by simpa using hword, ?_⟩, quotedAfter_eq_false_iff.1 hunquoted,
      hstarts.2 hs, hends.2 he⟩
    rw [← String.toList_inj, htext]
    simp

/-- The text can be cut between `before` and `behind`, and nowhere earlier. -/
def CutsFirst (text before behind : String) : Prop :=
  CutsAtThen text before behind ∧
    ∀ before' behind', CutsAtThen text before' behind' → before.length ≤ before'.length

theorem splitThen?_eq_some_iff_cutsFirst {text before behind : String} :
    splitThen? true false text.toList = some (before.toList, behind.toList) ↔
      CutsFirst text before behind := by
  rw [splitThen?_eq_some_iff, CutsFirst, cutsAtThen_iff]
  refine and_congr_right fun _ => ⟨fun h before' behind' hcut => ?_, fun h cs ds hat => ?_⟩
  · rw [← String.length_toList, ← String.length_toList]
    exact h _ _ (cutsAtThen_iff.1 hcut)
  · have hle := h (String.ofList cs) (String.ofList ds) (cutsAtThen_iff.2 (by simpa using hat))
    rwa [← String.length_toList, ← String.length_toList, String.toList_ofList] at hle

/-- If a text can be cut at all, there is a first place. -/
theorem exists_cutsFirst {text : String} (h : ∃ before behind, CutsAtThen text before behind) :
    ∃ before behind, CutsFirst text before behind := by
  classical
  have hlength : ∃ n before behind, CutsAtThen text before behind ∧ before.length = n := by
    obtain ⟨before, behind, hcut⟩ := h
    exact ⟨_, before, behind, hcut, rfl⟩
  obtain ⟨before, behind, hcut, hfind⟩ := Nat.find_spec hlength
  refine ⟨before, behind, hcut, fun before' behind' hcut' => ?_⟩
  rw [hfind]
  exact Nat.find_min' hlength ⟨before', behind', hcut', rfl⟩

theorem splitThen?_eq_none_iff {text : String} :
    splitThen? true false text.toList = none ↔
      ∀ before behind, ¬ CutsAtThen text before behind := by
  constructor
  · intro hnone before behind hcut
    obtain ⟨before', behind', hfirst⟩ := exists_cutsFirst ⟨before, behind, hcut⟩
    rw [splitThen?_eq_some_iff_cutsFirst.2 hfirst] at hnone
    cases hnone
  · intro hnever
    cases hsplit : splitThen? true false text.toList with
    | none => rfl
    | some sides =>
      obtain ⟨before, behind⟩ := sides
      have hfirst : CutsFirst text (String.ofList before) (String.ofList behind) :=
        splitThen?_eq_some_iff_cutsFirst.1 (by simpa using hsplit)
      exact absurd hfirst.1 (hnever _ _)

/-- The word takes four bytes, and both sides are cut off between characters. -/
theorem CutsAtThen.slices {text before behind : String} (h : CutsAtThen text before behind) :
    text.toUTF8.data.toList.take before.utf8ByteSize = before.toUTF8.data.toList ∧
      text.toUTF8.data.toList.drop (before.utf8ByteSize + 4) = behind.toUTF8.data.toList ∧
      (String.Pos.Raw.mk before.utf8ByteSize).IsValid text ∧
      (String.Pos.Raw.mk (before.utf8ByteSize + 4)).IsValid text := by
  obtain ⟨word, hword, rfl⟩ := h.word
  have hfour : word.utf8ByteSize = 4 := by
    rw [← length_bytes_toList, length_bytes_of_upper_eq_then hword]
  have hbytes : (before ++ word ++ behind).toUTF8.data.toList =
      bytes before.toList ++ bytes word.toList ++ bytes behind.toList := by
    rw [← bytes_toList]
    simp
  have hsize : (bytes before.toList ++ bytes word.toList).length = before.utf8ByteSize + 4 := by
    rw [List.length_append, length_bytes_toList, length_bytes_toList, hfour]
  refine ⟨?_, ?_, ?_, ?_⟩
  · rw [hbytes, List.append_assoc, List.take_left' (length_bytes_toList before), bytes_toList]
  · rw [hbytes, List.drop_left' hsize, bytes_toList]
  · exact String.Pos.Raw.isValid_iff_exists_append.2
      ⟨before, word ++ behind, String.append_assoc, rfl⟩
  · refine String.Pos.Raw.isValid_iff_exists_append.2 ⟨before ++ word, behind, rfl, ?_⟩
    rw [← hfour, ← String.utf8ByteSize_append]
    rfl

/-- **The first word `THEN` outside quotes is found.**  A text is cut exactly where the word stands with
    an even number of quotes before it and delimiters or nothing around it, and nowhere earlier; it is not
    cut only if there is no such place.  The search over the bytes of the text gives the same answer,
    whether or not it gives up when fewer than four are left, and the bytes before and behind the word are
    those of the two sides, cut off between characters. -/
theorem splitThen?_finds_first (text : String) :
    (∀ before behind : String,
      splitThen? true false text.toList = some (before.toList, behind.toList) ↔
        CutsFirst text before behind) ∧
    (splitThen? true false text.toList = none ↔
      ∀ before behind, ¬ CutsAtThen text before behind) ∧
    (∀ hasty, searchThen? hasty true false text.toUTF8.data.toList =
      (splitThen? true false text.toList).map fun sides => (String.ofList sides.1).utf8ByteSize) ∧
    (∀ before behind : String,
      splitThen? true false text.toList = some (before.toList, behind.toList) →
        text.toUTF8.data.toList.take before.utf8ByteSize = before.toUTF8.data.toList ∧
        text.toUTF8.data.toList.drop (before.utf8ByteSize + 4) = behind.toUTF8.data.toList ∧
        (String.Pos.Raw.mk before.utf8ByteSize).IsValid text ∧
        (String.Pos.Raw.mk (before.utf8ByteSize + 4)).IsValid text) := by
  refine ⟨fun before behind => splitThen?_eq_some_iff_cutsFirst, splitThen?_eq_none_iff, ?_,
    fun before behind h => (splitThen?_eq_some_iff_cutsFirst.1 h).1.slices⟩
  intro hasty
  rw [searchThen?_hasty, ← bytes_toList, searchThen?_bytes]
  congr 1
  funext sides
  simp [← length_bytes_toList]

/-- Words in quotes and within others, and characters of several bytes. -/
theorem splitThen?_finds_first_after_quotes :
    let text := "\"é then \" xTHEN\u3000then\tThen ü"
    let before := "\"é then \" xTHEN\u3000then\t"
    splitThen? true false text.toList = some (before.toList, " ü".toList) ∧
      CutsFirst text before " ü" ∧
      searchThen? true true false text.toUTF8.data.toList = some 24 ∧
      (String.Pos.Raw.mk before.utf8ByteSize).IsValid text := by
  intro text before
  have hsplit : splitThen? true false text.toList = some (before.toList, " ü".toList) := by
    simp only [text, before]
    rfl
  obtain ⟨hfirst, -, hbytes, hslices⟩ := splitThen?_finds_first text
  refine ⟨hsplit, (hfirst _ _).1 hsplit, ?_, (hslices _ _ hsplit).2.2.1⟩
  rw [hbytes, hsplit]
  simp only [before]
  rfl

end QubitBasic.Statement

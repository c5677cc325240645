/-
  Texts as bytes.

  In the UTF-8 form of a text a character of ASCII is the one byte of its code, and any other character
  is two to four bytes, all of them beyond ASCII (`utf8EncodeChar_cases`).  So a byte of ASCII stands
  where its own character does and nowhere else (`mem_utf8EncodeChar_iff`): whoever looks for characters
  of ASCII may look at bytes instead.
-/
import QubitBasic.Text.Blank

namespace QubitBasic.Text

/-- The bytes of the UTF-8 form of a text. -/
def bytes (cs : List Char) : List UInt8 := cs.flatMap String.utf8EncodeChar

@[simp] theorem bytes_nil : bytes [] = [] := rfl

@[simp] theorem bytes_cons (c : Char) (cs : List Char) :
    bytes (c :: cs) = String.utf8EncodeChar c ++ bytes cs := rfl

@[simp] theorem bytes_append (as bs : List Char) : bytes (as ++ bs) = bytes as ++ bytes bs :=
  List.flatMap_append

theorem bytes_toList (s : String) : bytes s.toList = s.toUTF8.data.toList := by
  have h : s.toUTF8 = (bytes s.toList).toByteArray := by
    conv => lhs; rw [← String.ofList_toList (s := s)]
    rfl
  rw [h, List.toList_data_toByteArray]

theorem bytes_injective {as bs : List Char} (h : bytes as = bytes bs) : as = bs := by
  rw [← String.toList_ofList (l := as), ← String.toList_ofList (l := bs), bytes_toList,
    bytes_toList] at h
  refine String.ofList_injective (String.toByteArray_inj.1 ?_)
  exact ByteArray.ext (Array.ext' h)

theorem length_bytes_toList (s : String) : (bytes s.toList).length = s.utf8ByteSize := by
  rw [bytes_toList]
  rfl

/-! ## Characters of ASCII -/

theorem le_toNat_ofNat {n : Nat} (hlow : 128 ≤ n) (hhigh : n < 256) :
    128 ≤ (UInt8.ofNat n).toNat := by
  rw [UInt8.toNat_ofNat', Nat.mod_eq_of_lt hhigh]
  exact hlow

/-- A character of ASCII is one byte, and all bytes of any other are beyond ASCII. -/
theorem utf8EncodeChar_cases (c : Char) :
    (c.toNat < 128 ∧ String.utf8EncodeChar c = [c.toUInt8]) ∨
      (128 ≤ c.toNat ∧ ∀ b ∈ String.utf8EncodeChar c, 128 ≤ b.toNat) := by
  have hval : c.val.toNat = c.toNat := rfl
  fun_cases String.utf8EncodeChar c with
  | case1 v hle => exact .inl ⟨by omega, rfl⟩
  | case2 v hle _ =>
    refine .inr ⟨by omega, fun b hb => ?_⟩
    simp only [List.mem_cons, List.not_mem_nil, or_false] at hb
    rcases hb with rfl | rfl <;> exact le_toNat_ofNat (by omega) (by omega)
  | case3 v hle _ _ =>
    refine .inr ⟨by omega, fun b hb => ?_⟩
    simp only [List.mem_cons, List.not_mem_nil, or_false] at hb
    rcases hb with rfl | rfl | rfl <;> exact le_toNat_ofNat (by omega) (by omega)
  | case4 v hle _ _ =>
    refine .inr ⟨by omega, fun b hb => ?_⟩
    simp only [List.mem_cons, List.not_mem_nil, or_false] at hb
    rcases hb with rfl | rfl | rfl | rfl <;> exact le_toNat_ofNat (by omega) (by omega)

theorem toNat_toUInt8 {c : Char} (h : c.toNat < 128) : c.toUInt8.toNat = c.toNat := by
  show c.toNat % 2 ^ 8 = c.toNat
  omega

/-- A byte of ASCII stands in no character but its own. -/
theorem mem_utf8EncodeChar_iff {c d : Char} (hd : d.toNat < 128) :
    d.toUInt8 ∈ String.utf8EncodeChar c ↔ c = d := by
  rcases utf8EncodeChar_cases c with ⟨hc, hbytes⟩ | ⟨hc, hbytes⟩
  · rw [hbytes, List.mem_singleton, ← UInt8.toNat_inj, toNat_toUInt8 hc, toNat_toUInt8 hd,
      Char.toNat_inj, eq_comm]
  · constructor
    · intro hmem
      have hlarge := hbytes _ hmem
      rw [toNat_toUInt8 hd] at hlarge
      omega
    · rintro rfl
      omega

/-- A text starts with a byte of ASCII only if it starts with its character. -/
theorem head?_bytes {d : Char} (hd : d.toNat < 128) {cs : List Char}
    (h : (bytes cs).head? = some d.toUInt8) : cs.head? = some d := by
  cases cs with
  | nil => cases h
  | cons c cs =>
    obtain ⟨b, bs, hbytes⟩ := List.exists_cons_of_ne_nil (String.utf8EncodeChar_ne_nil (c := c))
    rw [bytes_cons, hbytes] at h
    obtain rfl : b = d.toUInt8 := Option.some.inj h
    have hmem : d.toUInt8 ∈ String.utf8EncodeChar c := hbytes ▸ List.mem_cons_self
    rw [(mem_utf8EncodeChar_iff hd).1 hmem]
    rfl

/-- A text whose bytes start with bytes of ASCII starts with their characters. -/
theorem exists_append_of_bytes {cs : List Char} {as bs : List UInt8} (has : ∀ a ∈ as, a.toNat < 128)
    (h : bytes cs = as ++ bs) : ∃ word rest, cs = word ++ rest ∧ bytes word = as ∧ bytes rest = bs := by
  induction as generalizing cs with
  | nil => exact ⟨[], cs, rfl, rfl, h⟩
  | cons a as ih =>
    cases cs with
    | nil => cases h
    | cons c cs =>
      rw [bytes_cons] at h
      rcases utf8EncodeChar_cases c with ⟨-, hbytes⟩ | ⟨-, hbytes⟩
      · rw [hbytes] at h
        obtain ⟨rfl, htail⟩ := List.cons.inj h
        obtain ⟨word, rest, rfl, hword, hrest⟩ :=
          ih (fun b hb => has b (List.mem_cons_of_mem _ hb)) htail
        exact ⟨c :: word, rest, rfl, by rw [bytes_cons, hbytes, hword]; rfl, hrest⟩
      · -- The first byte would be beyond ASCII.
        obtain ⟨b, tail, hchar⟩ := List.exists_cons_of_ne_nil (String.utf8EncodeChar_ne_nil (c := c))
        have hlarge := hbytes b (hchar ▸ List.mem_cons_self)
        rw [hchar] at h
        have hsmall := has a List.mem_cons_self
        rw [← (List.cons.inj h).1] at hsmall
        omega

end QubitBasic.Text

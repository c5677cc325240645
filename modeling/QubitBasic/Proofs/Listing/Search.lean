/-
  Finding a line by halving finds the first line of its number.

  The lines of a listing that was read from a source are in the order of their numbers
  (`sorted_of_parse`), whatever order they were written in.  On such lines the search keeps the numbers
  before `low` smaller than the one wanted and those from `high` on no smaller, so where the two meet is
  where the wanted number would stand first (`search_spec`).  Whether it does stand there is then a
  single comparison: `index?` answers with the first line of the number, or no line has it
  (`index?_cases`), which is what a look at line after line would answer (`index?_finds_first`).
-/
import QubitBasic.Listing

namespace QubitBasic.Listing

/-! ## The order of lines -/

/-- Each line is followed only by lines whose numbers are no smaller. -/
def Sorted (lines : List Line) : Prop := lines.Pairwise fun a b => a.number ≤ b.number

theorem mem_insert {line other : Line} {lines : List Line} :
    other ∈ insert line lines ↔ other = line ∨ other ∈ lines := by
  induction lines with
  | nil => simp [insert]
  | cons first rest ih =>
    rw [insert]
    split
    · simp
    · simp [ih, or_left_comm]

theorem Sorted.insert {lines : List Line} (h : Sorted lines) (line : Line) :
    Sorted (Listing.insert line lines) := by
  induction lines with
  | nil => exact List.pairwise_singleton _ _
  | cons first rest ih =>
    obtain ⟨hfirst, hrest⟩ := List.pairwise_cons.1 h
    rw [Listing.insert]
    split
    case isTrue hle =>
      refine List.pairwise_cons.2 ⟨fun other hother => ?_, h⟩
      rcases List.mem_cons.1 hother with rfl | hother
      · exact hle
      · exact Nat.le_trans hle (hfirst other hother)
    case isFalse hle =>
      refine List.pairwise_cons.2 ⟨fun other hother => ?_, ih hrest⟩
      rcases mem_insert.1 hother with rfl | hother
      · exact Nat.le_of_not_le hle
      · exact hfirst other hother

theorem sorted_sort (lines : List Line) : Sorted (sort lines) := by
  induction lines with
  | nil => exact List.Pairwise.nil
  | cons line rest ih => exact ih.insert line

theorem sorted_of_parse {duplicates : DuplicatePolicy} {source : String} {listing : Listing}
    (h : parse duplicates source = .ok listing) : Sorted listing.lines.toList := by
  rw [parse] at h
  split at h
  · cases h
  · rename_i lines _
    simp only at h
    split at h
    · cases h
    · obtain rfl := Except.ok.inj h
      exact sorted_sort lines

theorem Sorted.number_le {lines : Array Line} (h : Sorted lines.toList) {i j : Nat} (hij : i ≤ j)
    (hj : j < lines.size) : lines[i].number ≤ lines[j].number := by
  rcases Nat.lt_or_eq_of_le hij with hlt | rfl
  · exact List.pairwise_iff_getElem.1 h i j (by simpa using Nat.lt_trans hlt hj) (by simpa using hj) hlt
  · exact Nat.le_refl _

/-! ## The search -/

/-- All lines before `index` have smaller numbers than `number`. -/
def Below (lines : Array Line) (number index : Nat) : Prop :=
  ∀ i (hi : i < lines.size), i < index → lines[i].number < number

/-- No line from `index` on has a smaller number than `number`. -/
def Above (lines : Array Line) (number index : Nat) : Prop :=
  ∀ i (hi : i < lines.size), index ≤ i → number ≤ lines[i].number

/-- The search ends where the smaller numbers do. -/
theorem search_spec {lines : Array Line} (hsorted : Sorted lines.toList) (number low high : Nat)
    (bound : high ≤ lines.size) (hle : low ≤ high) (hbelow : Below lines number low)
    (habove : Above lines number high) :
    Below lines number (search lines number low high bound) ∧
      Above lines number (search lines number low high bound) := by
  fun_induction search lines number low high bound with
  | case1 low high bound hlt middle hmiddle hsmaller ih =>
    refine ih (by omega) (fun i hi hlow => ?_) habove
    exact Nat.lt_of_le_of_lt (hsorted.number_le (by omega) hmiddle) hsmaller
  | case2 low high bound hlt middle hmiddle hsmaller ih =>
    refine ih (by omega) hbelow fun i hi hmiddle => ?_
    exact Nat.le_trans (Nat.le_of_not_lt hsmaller) (hsorted.number_le hmiddle hi)
  | case3 low high bound hlt =>
    obtain rfl : low = high := by omega
    exact ⟨hbelow, habove⟩

/-! ## Finding a line -/

/-- The line at `index` is numbered `number`. -/
def NumberedAt (listing : Listing) (index number : Nat) : Prop :=
  ∃ line, listing.line? index = some line ∧ line.number = number

/-- The line at `index` is the first one numbered `number`. -/
def FirstAt (listing : Listing) (index number : Nat) : Prop :=
  listing.NumberedAt index number ∧ ∀ i < index, ¬ listing.NumberedAt i number

theorem numberedAt_iff {listing : Listing} {index number : Nat} :
    listing.NumberedAt index number ↔
      ∃ h : index < listing.lines.size, listing.lines[index].number = number := by
  constructor
  · rintro ⟨line, hline, hnumber⟩
    obtain ⟨hindex, rfl⟩ := Array.getElem?_eq_some_iff.1 hline
    exact ⟨hindex, hnumber⟩
  · rintro ⟨hindex, hnumber⟩
    exact ⟨_, Array.getElem?_eq_getElem hindex, hnumber⟩

/-- Looking a number up finds its first line, or there is none. -/
theorem index?_cases {listing : Listing} (hsorted : Sorted listing.lines.toList) (number : Nat) :
    (∃ index, listing.index? number = some index ∧ listing.FirstAt index number) ∨
      (listing.index? number = none ∧ ∀ index, ¬ listing.NumberedAt index number) := by
  obtain ⟨hbelow, habove⟩ := search_spec hsorted number 0 listing.lines.size (Nat.le_refl _)
    (Nat.zero_le _) (fun i _ hi => absurd hi (Nat.not_lt_zero i))
    (fun i hi hsize => absurd hi (Nat.not_lt_of_le hsize))
  rw [index?]
  generalize search listing.lines number 0 listing.lines.size _ = cut at hbelow habove
  -- Only the line at the cut can have the number if none before it has: all lines behind it have
  -- numbers no smaller than its own.
  have hbefore : ∀ i < cut, ¬ listing.NumberedAt i number := by
    rintro i hi hnumbered
    obtain ⟨hsize, hnumber⟩ := numberedAt_iff.1 hnumbered
    exact Nat.ne_of_lt (hbelow i hsize hi) hnumber
  by_cases hcut : cut < listing.lines.size
  · by_cases hnumber : listing.lines[cut].number = number
    · refine .inl ⟨cut, ?_, numberedAt_iff.2 ⟨hcut, hnumber⟩, hbefore⟩
      simp only [Array.getElem?_eq_getElem hcut, if_pos hnumber]
    · refine .inr ⟨by simp only [Array.getElem?_eq_getElem hcut, if_neg hnumber], ?_⟩
      rintro i hnumbered
      rcases Nat.lt_or_ge i cut with hlt | hge
      · exact hbefore i hlt hnumbered
      · obtain ⟨hsize, rfl⟩ := numberedAt_iff.1 hnumbered
        exact hnumber (Nat.le_antisymm (hsorted.number_le hge hsize) (habove cut hcut (Nat.le_refl _)))
  · refine .inr ⟨by simp only [Array.getElem?_eq_none (Nat.le_of_not_lt hcut)], fun i hnumbered => ?_⟩
    obtain ⟨hsize, -⟩ := numberedAt_iff.1 hnumbered
    exact hbefore i (Nat.lt_of_lt_of_le hsize (Nat.le_of_not_lt hcut)) hnumbered

/-! ## Looking at every line -/

theorem FirstAt.eq {listing : Listing} {i j number : Nat} (hi : listing.FirstAt i number)
    (hj : listing.FirstAt j number) : i = j := by
  rcases Nat.lt_trichotomy i j with hlt | rfl | hgt
  · exact absurd hi.1 (hj.2 i hlt)
  · rfl
  · exact absurd hj.1 (hi.2 j hgt)

/-- The first line of a number is the one that a look at line after line finds. -/
theorem firstAt_iff_findIdx? {listing : Listing} {index number : Nat} :
    listing.FirstAt index number ↔
      listing.lines.findIdx? (fun line => line.number == number) = some index := by
  rw [Array.findIdx?_eq_some_iff_getElem]
  simp only [FirstAt, numberedAt_iff, beq_iff_eq]
  constructor
  · rintro ⟨⟨hindex, hnumber⟩, hbefore⟩
    exact ⟨hindex, hnumber, fun j hj hnumber => hbefore j hj ⟨Nat.lt_trans hj hindex, hnumber⟩⟩
  · rintro ⟨hindex, hnumber, hbefore⟩
    exact ⟨⟨hindex, hnumber⟩, fun j hj hnumbered => hbefore j hj hnumbered.2⟩

/-- **Looking a number up by halving is looking at every line.**  In a listing that was read from a
    source, whatever the source and the policy, a number is found at the first line that has it, and not
    found exactly if no line has it. -/
theorem index?_finds_first {duplicates : DuplicatePolicy} {source : String} {listing : Listing}
    (h : parse duplicates source = .ok listing) (number : Nat) :
    (∀ index, listing.index? number = some index ↔ listing.FirstAt index number) ∧
    (listing.index? number = none ↔ ∀ index, ¬ listing.NumberedAt index number) ∧
    listing.index? number = listing.lines.findIdx? fun line => line.number == number := by
  rcases index?_cases (sorted_of_parse h) number with ⟨found, hfound, hfirst⟩ | ⟨hnone, hno⟩
  · rw [hfound]
    refine ⟨fun index => ⟨fun heq => ?_, fun hindex => ?_⟩, ?_, (firstAt_iff_findIdx?.1 hfirst).symm⟩
    · exact Option.some.inj heq ▸ hfirst
    · rw [hfirst.eq hindex]
    · exact ⟨nofun, fun hno => absurd hfirst.1 (hno found)⟩
  · rw [hnone]
    refine ⟨fun index => ⟨nofun, fun hindex => absurd hindex.1 (hno index)⟩, ?_, ?_⟩
    · exact ⟨fun _ => hno, fun _ => rfl⟩
    · symm
      refine Option.eq_none_iff_forall_ne_some.2 fun index hindex => ?_
      exact hno index (firstAt_iff_findIdx?.2 hindex).1

/-- Of three lines numbered 20, written before a smaller number, the first is found behind it, and a
    number between two others is not found. -/
theorem index?_finds_first_of_three :
    let listing : Listing := ⟨#[⟨10, "END"⟩, ⟨20, "PRINT 1"⟩, ⟨20, "PRINT 2"⟩, ⟨20, "PRINT 3"⟩,
      ⟨30, "END"⟩]⟩
    parse .keep "20 PRINT 1\n30 END\n20 PRINT 2\n10 END\n20 PRINT 3" = .ok listing ∧
      listing.index? 20 = some 1 ∧ listing.FirstAt 1 20 ∧
      listing.index? 25 = none ∧ ∀ index, ¬ listing.NumberedAt index 25 := by
  intro listing
  have hparse : parse .keep "20 PRINT 1\n30 END\n20 PRINT 2\n10 END\n20 PRINT 3" = .ok listing := by
    rfl
  obtain ⟨hfirst, -, -⟩ := index?_finds_first hparse 20
  obtain ⟨-, hnone, -⟩ := index?_finds_first hparse 25
  have hfound : listing.index? 20 = some 1 := by decide +kernel
  have hmissing : listing.index? 25 = none := by decide +kernel
  exact ⟨hparse, hfound, (hfirst 1).1 hfound, hmissing, hnone.1 hmissing⟩

end QubitBasic.Listing

/-
  A line put into a source.

  A further line may stand anywhere in a source.  If it is written as a numbered line and its number is
  a new one, the source is read as before with just this line more, at the place of its number
  (`parse_insertLine`): it can neither repeat a number nor come between lines that share one.

  In the longer listing every line from that place on has the next greater index (`skip`), so a number
  other than the new one is found at the index that stands for the old one (`Inserted.index?_eq`).
-/
import QubitBasic.Proofs.Listing.Reading

namespace QubitBasic.Listing

open Text

/-! ## In the source -/

/-- The source with a further line behind its first `position` lines. -/
def insertLine (position : Nat) (text source : String) : String :=
  String.ofList (['\n'].intercalate ((Text.lines source.toList).take position ++
    text.toList :: (Text.lines source.toList).drop position))

theorem lines_insertLine (position : Nat) {text : String} (htext : '\n' ∉ text.toList)
    (source : String) :
    Text.lines (insertLine position text source).toList =
      (Text.lines source.toList).take position ++
        text.toList :: (Text.lines source.toList).drop position := by
  rw [insertLine, String.toList_ofList, Text.lines]
  refine pieces_intercalate_of_not_mem (by simp) fun part hpart => ?_
  rcases List.mem_append.1 hpart with hbefore | hrest
  · exact not_mem_of_mem_pieces (List.mem_of_mem_take hbefore)
  · rcases List.mem_cons.1 hrest with rfl | hbehind
    · exact htext
    · exact not_mem_of_mem_pieces (List.mem_of_mem_drop hbehind)

/-- The lines that are not blank are the old ones with the new one somewhere among them. -/
theorem exists_rawLines_insertLine (position : Nat) {text : String} (htext : '\n' ∉ text.toList)
    (hne : trim text.toList ≠ []) (source : String) :
    ∃ before behind, rawLines source.toList = before ++ behind ∧
      rawLines (insertLine position text source).toList = before ++ trim text.toList :: behind := by
  refine ⟨(((Text.lines source.toList).take position).map trim).filter (!·.isEmpty),
    (((Text.lines source.toList).drop position).map trim).filter (!·.isEmpty), ?_, ?_⟩
  · rw [← List.filter_append, ← List.map_append, List.take_append_drop, rawLines]
  · rw [rawLines, lines_insertLine position htext, List.map_append, List.filter_append, List.map_cons,
      List.filter_cons_of_pos (by simpa using hne)]

theorem exists_lists_insertLine {source text : String} {lines : List Line} {line : Line}
    (h : Lists source lines) (htext : '\n' ∉ text.toList)
    (hwritten : Line.Written (trim text.toList) line) (position : Nat) :
    ∃ before behind, lines = before ++ behind ∧
      Lists (insertLine position text source) (before ++ line :: behind) := by
  have hne : trim text.toList ≠ [] := by
    intro hnil
    rw [hnil] at hwritten
    cases Line.parse?_of_written hwritten
  obtain ⟨before, behind, hold, hput⟩ := exists_rawLines_insertLine position htext hne source
  rw [Lists, hold] at h
  have hbefore := List.forall₂_take before.length h
  have hbehind := List.forall₂_drop before.length h
  rw [List.take_left] at hbefore
  rw [List.drop_left] at hbehind
  refine ⟨lines.take before.length, lines.drop before.length, (List.take_append_drop _ _).symm, ?_⟩
  rw [Lists, hput]
  exact List.rel_append hbefore (.cons hwritten hbehind)

/-! ## In the listing -/

/-- What reading a source comes to. -/
theorem parse_eq_ok_iff {duplicates : DuplicatePolicy} {source : String} {listing : Listing} :
    parse duplicates source = .ok listing ↔
      ∃ lines, Lists source lines ∧ listing = ⟨(sort lines).toArray⟩ ∧
        (duplicates = .reject → (lines.map Line.number).Nodup) := by
  constructor
  · intro h
    cases hread : readLines (rawLines source.toList) with
    | error error =>
      rw [parse, hread] at h
      cases h
    | ok lines =>
      have hlists : Lists source lines := lists_iff.2 hread
      cases duplicates with
      | keep =>
        rw [parse_keep_of_lists hlists] at h
        exact ⟨lines, hlists, (Except.ok.inj h).symm, fun hreject => by cases hreject⟩
      | reject =>
        obtain ⟨hdistinct, hrepeated⟩ := parse_reject_of_lists hlists
        by_cases hnodup : (lines.map Line.number).Nodup
        · rw [hdistinct hnodup] at h
          exact ⟨lines, hlists, (Except.ok.inj h).symm, fun _ => hnodup⟩
        · obtain ⟨number, -, hduplicate⟩ := hrepeated hnodup
          rw [hduplicate] at h
          cases h
  · rintro ⟨lines, hlists, rfl, hnodup⟩
    cases duplicates with
    | keep => exact parse_keep_of_lists hlists
    | reject => exact (parse_reject_of_lists hlists).1 (hnodup rfl)

/-- A line of a new number has one place only among ordered lines, wherever it was written. -/
theorem sort_append_cons {before behind : List Line} {line : Line}
    (hnew : ∀ other ∈ before ++ behind, other.number ≠ line.number) :
    sort (before ++ line :: behind) = insert line (sort (before ++ behind)) := by
  refine (sorted_sort _).eq_of_numbered ((sorted_sort _).insert line) fun number => ?_
  have hcons : ∀ rest, numbered number (line :: rest) =
      numbered number [line] ++ numbered number rest := fun rest => numbered_append number [line] rest
  rw [(stableSort_sort _).stable, numbered_insert, numbered_append, hcons behind, hcons (sort _),
    (stableSort_sort _).stable, numbered_append]
  by_cases hnumber : line.number = number
  · -- No old line has the number, so there is none that the new one could come before.
    have hnone : numbered number before = [] := numbered_eq_nil fun other hother =>
      hnumber ▸ hnew other (List.mem_append_left _ hother)
    rw [hnone, List.nil_append, List.nil_append]
  · have hnone : numbered number [line] = [] := numbered_eq_nil fun other hother =>
      (List.mem_singleton.1 hother) ▸ hnumber
    rw [hnone, List.nil_append, List.nil_append]

/-- The source with a line of a new number is read as before, with this line more. -/
theorem parse_insertLine {duplicates : DuplicatePolicy} {source text : String} {listing : Listing}
    {line : Line} (hparse : parse duplicates source = .ok listing) (htext : '\n' ∉ text.toList)
    (hwritten : Line.Written (trim text.toList) line)
    (hnew : ∀ other ∈ listing.lines, other.number ≠ line.number) (position : Nat) :
    parse duplicates (insertLine position text source) =
      .ok ⟨(insert line listing.lines.toList).toArray⟩ := by
  obtain ⟨lines, hlists, rfl, hnodup⟩ := parse_eq_ok_iff.1 hparse
  obtain ⟨before, behind, rfl, hlists'⟩ := exists_lists_insertLine hlists htext hwritten position
  have hnew : ∀ other ∈ before ++ behind, other.number ≠ line.number := by
    intro other hother
    refine hnew other ?_
    rw [List.mem_toArray]
    exact (stableSort_sort _).perm.mem_iff.2 hother
  refine parse_eq_ok_iff.2 ⟨_, hlists', by rw [sort_append_cons hnew], fun hreject => ?_⟩
  -- Refusing duplicates asks for distinct numbers, in whatever order.
  have hperm : (before ++ line :: behind).Perm (line :: (before ++ behind)) := List.perm_middle
  rw [(hperm.map Line.number).nodup_iff, List.map_cons, List.nodup_cons]
  refine ⟨fun hmem => ?_, hnodup hreject⟩
  obtain ⟨other, hother, hnumber⟩ := List.mem_map.1 hmem
  exact hnew other hother hnumber

/-! ## Indices -/

/-- The index of a line once another one was put in at `position`. -/
def skip (position index : Nat) : Nat := if index < position then index else index + 1

/-- The second listing is the first one with `line` put in at `position`. -/
structure Inserted (listing listing' : Listing) (position : Nat) (line : Line) : Prop where
  line?_position : listing'.line? position = some line
  line?_skip : ∀ index, listing'.line? (skip position index) = listing.line? index

/-- Each index but the new one stands for an old one. -/
theorem exists_skip {position index : Nat} (h : index ≠ position) :
    ∃ old, index = skip position old := by
  rcases Nat.lt_or_gt_of_ne h with hlt | hgt
  · exact ⟨index, by rw [skip, if_pos hlt]⟩
  · exact ⟨index - 1, by rw [skip, if_neg (by omega)]; omega⟩

theorem skip_lt_skip {position index other : Nat} :
    skip position index < skip position other ↔ index < other := by
  unfold skip
  split <;> split <;> omega

theorem exists_inserted (line : Line) (lines : List Line) :
    ∃ position, Inserted ⟨lines.toArray⟩ ⟨(insert line lines).toArray⟩ position line := by
  obtain ⟨before, behind, rfl, hinsert⟩ :
      ∃ before behind, lines = before ++ behind ∧ insert line lines = before ++ line :: behind := by
    induction lines with
    | nil => exact ⟨[], [], rfl, rfl⟩
    | cons first rest ih =>
      rw [insert]
      split
      · exact ⟨[], first :: rest, rfl, rfl⟩
      · obtain ⟨before, behind, hrest, hinsert⟩ := ih
        exact ⟨first :: before, behind, by rw [hrest]; rfl, by rw [hinsert]; rfl⟩
  refine ⟨before.length, ?_, fun index => ?_⟩
  · simp [line?, hinsert]
  · simp only [line?, hinsert, List.getElem?_toArray, skip]
    split
    case isTrue hlt => rw [List.getElem?_append_left hlt, List.getElem?_append_left hlt]
    case isFalse hge =>
      rw [List.getElem?_append_right (by omega), List.getElem?_append_right (by omega),
        Nat.sub_add_comm (by omega), List.getElem?_cons_succ]

namespace Inserted

variable {listing listing' : Listing} {position : Nat} {line : Line}
  (h : Inserted listing listing' position line)

include h

theorem numberedAt_skip {index number : Nat} :
    listing'.NumberedAt (skip position index) number ↔ listing.NumberedAt index number := by
  rw [NumberedAt, NumberedAt, h.line?_skip]

/-- The first line of a number stays its first line, if the new line has another number. -/
theorem firstAt_skip {index number : Nat} (hne : line.number ≠ number)
    (hfirst : listing.FirstAt index number) : listing'.FirstAt (skip position index) number := by
  obtain ⟨hnumbered, hbefore⟩ := hfirst
  refine ⟨h.numberedAt_skip.2 hnumbered, fun i hi hnumbered' => ?_⟩
  by_cases hposition : i = position
  · obtain ⟨other, hother, hnumber⟩ := hnumbered'
    rw [hposition, h.line?_position] at hother
    obtain rfl := Option.some.inj hother
    exact hne hnumber
  · obtain ⟨old, rfl⟩ := exists_skip hposition
    exact hbefore old (skip_lt_skip.1 hi) (h.numberedAt_skip.1 hnumbered')

theorem index?_eq (hsorted : Sorted listing.lines.toList) (hsorted' : Sorted listing'.lines.toList)
    {index number : Nat} (hne : line.number ≠ number) (hindex : listing.index? number = some index) :
    listing'.index? number = some (skip position index) := by
  have hfirst : listing.FirstAt index number := by
    rcases index?_cases hsorted number with ⟨found, hfound, hfirst⟩ | ⟨hnone, -⟩
    · obtain rfl := Option.some.inj (hindex.symm.trans hfound)
      exact hfirst
    · cases hindex.symm.trans hnone
  obtain ⟨hnumbered, hbefore⟩ := h.firstAt_skip hne hfirst
  rcases index?_cases hsorted' number with ⟨found, hfound, hfound', hbefore'⟩ | ⟨-, hnone⟩
  · -- Two lines that are both the first of their number are one.
    rcases Nat.lt_trichotomy found (skip position index) with hlt | heq | hgt
    · exact absurd hfound' (hbefore found hlt)
    · rw [hfound, heq]
    · exact absurd hnumbered (hbefore' _ hgt)
  · exact absurd hnumbered (hnone _)

end Inserted

end QubitBasic.Listing

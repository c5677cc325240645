/-
  Reading the arguments of `run`.

  Reading keeps nothing but what the segments so far ask for together (`gathered`).  One more segment is
  read by gathering it too (`Segment.Written.read_eq`), and so are many, and an offence is refused where it
  stands (`Offends.read_eq`).  As every list of arguments is fine segments or has a first offence, this
  says what is read from every list: the request that the segments make, or the error of the first offence,
  or that no program is named (`parse_accepts_segments`).
-/
import QubitBasic.Proofs.Command.Segments

namespace QubitBasic.RunArguments

open Text Segment

variable {segment : Segment} {segments segments' before : List Segment}
  {words arguments arguments' : List String} {result : RunArguments} {error : Error}

/-! ## One segment -/

/-- How reading goes on with one argument. -/
theorem read_cons (pending : Pending) (argument : String) (rest : List String) :
    read pending (argument :: rest) =
      if argument = "--json" then read { pending with json := true } rest
      else if argument = "--seed" then
        match rest with
        | [] => .error .seedMissing
        | value :: rest =>
          match word value.toList with
          | .error error => .error (.badSeed value error)
          | .ok n => read { pending with seed := some (UInt64.ofNat n) } rest
      else if argument = "--config" then
        match rest with
        | [] => .error .configMissing
        | path :: rest => read { pending with config := some path } rest
      else if isOption argument then .error (.unknownOption argument)
      else match pending.path with
        | none => read { pending with path := some argument } rest
        | some _ => .error (.unexpected argument) :=
  read.eq_def pending (argument :: rest)

theorem isOption_iff {argument : String} :
    isOption argument = true ↔ "--".toList <+: argument.toList := by
  rw [isOption, List.isPrefixOf_iff_prefix]
  rfl

/-- An argument that is none of the options. -/
theorem read_of_not_mem {argument : String} (h : argument ∉ ["--json", "--seed", "--config"])
    (pending : Pending) (rest : List String) :
    read pending (argument :: rest) =
      if isOption argument then .error (.unknownOption argument)
      else match pending.path with
        | none => read { pending with path := some argument } rest
        | some _ => .error (.unexpected argument) := by
  simp only [List.mem_cons, List.not_mem_nil, or_false, not_or] at h
  obtain ⟨hjson, hseed, hconfig⟩ := h
  rw [read_cons, if_neg hjson, if_neg hseed, if_neg hconfig]

theorem read_program {pending : Pending} {path : String} (h : ¬ "--".toList <+: path.toList)
    (rest : List String) :
    read pending (path :: rest) =
      match pending.path with
      | none => read { pending with path := some path } rest
      | some _ => .error (.unexpected path) := by
  rw [read_of_not_mem fun hmem => ne_of_not_dashes h hmem rfl,
    if_neg fun hoption => h (isOption_iff.1 hoption)]

/-- What is known after the segments. -/
def gathered (segments : List Segment) : Pending where
  path := (segments.filterMap program?).getLast?
  json := decide (.json ∈ segments)
  seed := (segments.filterMap seed?).getLast?
  config := (segments.filterMap config?).getLast?

theorem gathered_concat (before : List Segment) (segment : Segment) :
    gathered (before ++ [segment]) =
      match segment with
      | .json => { gathered before with json := true }
      | .seed n => { gathered before with seed := some n }
      | .config path => { gathered before with config := some path }
      | .program path => { gathered before with path := some path } := by
  cases segment <;> simp [gathered, program?, seed?, config?]

/-- One segment is read by gathering it. -/
theorem Segment.Written.read_eq (h : Written segment words) (hfine : Fine (before ++ [segment]))
    (rest : List String) :
    read (gathered before) (words ++ rest) = read (gathered (before ++ [segment])) rest := by
  rw [gathered_concat]
  cases h with
  | json => rw [List.singleton_append, read_cons, if_pos rfl]
  | seed hvalue =>
    rw [List.cons_append, List.singleton_append, read_cons, if_neg (by decide), if_pos rfl]
    simp only [hvalue.word_eq, UInt64.ofNat_toNat]
  | config path =>
    rw [List.cons_append, List.singleton_append, read_cons, if_neg (by decide), if_neg (by decide),
      if_pos rfl]
  | program hpath =>
    have hnone : (gathered before).path = none := by
      rw [gathered, fine_concat_program_iff.1 hfine]
      rfl
    rw [List.singleton_append, read_program hpath, hnone]

/-- An offence is refused where it stands. -/
theorem Offends.read_eq {rest : List String} (h : Offends before rest error) :
    read (gathered before) rest = .error error := by
  cases h with
  | seedMissing => rfl
  | badSeed hvalue =>
    rw [read_cons, if_neg (by decide), if_pos rfl]
    simp only [hvalue.word_eq]
  | configMissing => rfl
  | unknownOption hdashes hunknown =>
    rw [read_of_not_mem hunknown, if_pos (isOption_iff.2 hdashes)]
  | unexpected hargument hnamed =>
    obtain ⟨path, hpath⟩ : ∃ path, (gathered before).path = some path :=
      ⟨_, List.getLast?_eq_some_getLast hnamed⟩
    rw [read_program hargument, hpath]

/-! ## All segments -/

theorem Spells.read_eq (h : Spells segments words) (before : List Segment)
    (hfine : Fine (before ++ segments)) (rest : List String) :
    read (gathered before) (words ++ rest) = read (gathered (before ++ segments)) rest := by
  induction h generalizing before with
  | nil => simp
  | cons hwritten _ ih =>
    rw [← List.singleton_append, ← List.append_assoc] at hfine ⊢
    rw [List.append_assoc, hwritten.read_eq hfine.of_append, ih _ hfine]

theorem Spells.parse_append (h : Spells segments words) (hfine : Fine segments)
    (rest : List String) : parse (words ++ rest) = read (gathered segments) rest := by
  have hread := h.read_eq [] hfine rest
  rwa [List.nil_append] at hread

theorem Spells.parse_eq (h : Spells segments arguments) (hfine : Fine segments) :
    parse arguments = read (gathered segments) [] := by
  have hparse := h.parse_append hfine []
  rwa [List.append_nil] at hparse

theorem OffendsFirst.parse_eq (h : OffendsFirst arguments error) :
    parse arguments = .error error := by
  obtain ⟨segments, before, rest, rfl, hspells, hfine, herror⟩ := h
  rw [hspells.parse_append hfine, herror.read_eq]

theorem NamesNoProgram.parse_eq (h : NamesNoProgram arguments) :
    parse arguments = .error .noPath := by
  obtain ⟨segments, hspells, hnone⟩ := h
  rw [hspells.parse_eq (fine_of_programs_eq_nil hnone), read, gathered, hnone]
  rfl

theorem Spells.parse_of_asks (h : Spells segments arguments) (hasks : Asks segments result) :
    parse arguments = .ok result := by
  obtain ⟨path, json, seed, config⟩ := result
  obtain ⟨hpath, hjson, rfl, rfl⟩ := hasks
  have hdecide : decide (.json ∈ segments) = json := by
    rw [Bool.eq_iff_iff, decide_eq_true_iff]
    exact hjson.symm
  rw [h.parse_eq (fine_of_programs_eq_singleton hpath), read, gathered, hpath, hdecide]
  rfl

/-- One program among the segments makes them a request. -/
theorem exists_asks {path : String} (h : segments.filterMap program? = [path]) :
    ∃ result, Asks segments result :=
  ⟨⟨path, decide (.json ∈ segments), (segments.filterMap seed?).getLast?,
    (segments.filterMap config?).getLast?⟩, h, decide_eq_true_iff, rfl, rfl⟩

/-- Written segments name no program, make a request, or name a second program. -/
theorem Spells.cases_programs (h : Spells segments arguments) :
    NamesNoProgram arguments ∨ (∃ result, Asks segments result) ∨
      ∃ first second more, segments.filterMap program? = first :: second :: more := by
  match hprograms : segments.filterMap program? with
  | [] => exact .inl ⟨segments, h, hprograms⟩
  | [path] => exact .inr (.inl (exists_asks hprograms))
  | first :: second :: more => exact .inr (.inr ⟨first, second, more, rfl⟩)

/-- Every list of arguments makes a request, names no program or has a first offence. -/
theorem parse_cases (arguments : List String) :
    (∃ segments result, Spells segments arguments ∧ Asks segments result) ∨
      NamesNoProgram arguments ∨ ∃ error, OffendsFirst arguments error := by
  rcases exists_fine_or_offendsFirst arguments with ⟨segments, hspells, hfine⟩ | hoffends
  · rcases hspells.cases_programs with hnone | ⟨result, hasks⟩ | ⟨first, second, more, hprograms⟩
    · exact .inr (.inl hnone)
    · exact .inl ⟨segments, result, hspells, hasks⟩
    · exact .inr (.inr ⟨_, hspells.offendsFirst_second_program hprograms⟩)
  · exact .inr (.inr hoffends)

theorem parse_eq_ok_iff :
    parse arguments = .ok result ↔ ∃ segments, Spells segments arguments ∧ Asks segments result := by
  constructor
  · intro h
    rcases parse_cases arguments with ⟨segments, result', hspells, hasks⟩ | hnone | ⟨error, herror⟩
    · obtain rfl : result' = result := Except.ok.inj ((hspells.parse_of_asks hasks).symm.trans h)
      exact ⟨segments, hspells, hasks⟩
    · rw [hnone.parse_eq] at h
      cases h
    · rw [herror.parse_eq] at h
      cases h
  · rintro ⟨segments, hspells, hasks⟩
    exact hspells.parse_of_asks hasks

theorem parse_eq_error_iff :
    parse arguments = .error error ↔
      OffendsFirst arguments error ∨ error = .noPath ∧ NamesNoProgram arguments := by
  constructor
  · intro h
    rcases parse_cases arguments with ⟨segments, result, hspells, hasks⟩ | hnone | ⟨error', herror'⟩
    · rw [hspells.parse_of_asks hasks] at h
      cases h
    · rw [hnone.parse_eq] at h
      exact .inr ⟨(Except.error.inj h).symm, hnone⟩
    · obtain rfl : error' = error := Except.error.inj (herror'.parse_eq.symm.trans h)
      exact .inl herror'
  · rintro (hoffends | ⟨rfl, hnone⟩)
    · exact hoffends.parse_eq
    · exact hnone.parse_eq

/-- Segments of different kinds may change places, also where they make no request. -/
theorem Reordered.parse_eq (h : Reordered segments segments') (hspells : Spells segments arguments)
    (hspells' : Spells segments' arguments') : parse arguments = parse arguments' := by
  obtain ⟨hsame, -, -⟩ := h.contents_eq
  match hprograms : segments.filterMap program? with
  | [] =>
    rw [NamesNoProgram.parse_eq ⟨segments, hspells, hprograms⟩,
      NamesNoProgram.parse_eq ⟨segments', hspells', hsame.symm.trans hprograms⟩]
  | [path] =>
    obtain ⟨result, hasks⟩ := exists_asks hprograms
    rw [hspells.parse_of_asks hasks, hspells'.parse_of_asks (h.asks hasks)]
  | first :: second :: more =>
    rw [(hspells.offendsFirst_second_program hprograms).parse_eq,
      (hspells'.offendsFirst_second_program (hsame.symm.trans hprograms)).parse_eq]

/-! ## The usage -/

/-- The usage is the only message that starts with a capital letter. -/
theorem head?_message_ne (h : error ≠ .noPath) : error.message.toList.head? ≠ some 'U' := by
  cases error with
  | noPath => exact absurd rfl h
  | seedMissing => decide
  | configMissing => decide
  | badSeed value fault =>
    show ("bad --seed '" ++ value ++ "': " ++ fault.message).toList.head? ≠ some 'U'
    simp
  | unknownOption option =>
    show ("unknown option '" ++ option ++ "'").toList.head? ≠ some 'U'
    simp
  | unexpected argument =>
    show ("unexpected argument '" ++ argument ++ "'").toList.head? ≠ some 'U'
    simp

theorem eq_noPath_of_message_eq (h : error.message = Error.message .noPath) : error = .noPath := by
  by_contra hne
  refine head?_message_ne hne ?_
  rw [h]
  rfl

/-- **The arguments of `run` are segments.**  A list is accepted exactly if it is written segments with
    one program among them, and the answer is what they ask for; it is cut into segments in one way.
    Segments of different kinds may change places.  Otherwise the error is that of the leftmost offending
    segment, and the usage only where all segments are fine and none names a program. -/
theorem parse_accepts_segments (arguments : List String) :
    (∀ result, parse arguments = .ok result ↔
      ∃ segments, Spells segments arguments ∧ Asks segments result) ∧
    (∀ segments segments', Spells segments arguments → Spells segments' arguments →
      segments = segments') ∧
    (∀ segments segments' arguments', Spells segments arguments → Spells segments' arguments' →
      Reordered segments segments' → parse arguments = parse arguments') ∧
    (∀ error, parse arguments = .error error ↔
      OffendsFirst arguments error ∨ error = .noPath ∧ NamesNoProgram arguments) ∧
    ((∃ error, parse arguments = .error error ∧ error.message = Error.message .noPath) ↔
      NamesNoProgram arguments) := by
  refine ⟨fun result => parse_eq_ok_iff, fun _ _ h h' => h.unique h',
    fun _ _ _ hspells hspells' h => h.parse_eq hspells hspells',
    fun error => parse_eq_error_iff, ?_⟩
  constructor
  · rintro ⟨error, herror, husage⟩
    obtain rfl := eq_noPath_of_message_eq husage
    rcases parse_eq_error_iff.1 herror with ⟨_, _, _, -, -, -, hoffends⟩ | ⟨-, hnone⟩
    · cases hoffends
    · exact hnone
  · intro h
    exact ⟨.noPath, h.parse_eq, rfl⟩

/-- An option as the value of another one, and a repeated seed with a sign. -/
theorem parse_accepts_segments_swallowed_option :
    let arguments := ["--seed", "5", "--config", "--json", "a.bas", "--seed", "+07"]
    parse arguments = .ok ⟨"a.bas", false, some 7, some "--json"⟩ ∧
      (∀ segments, Spells segments arguments →
        segments = [.seed 5, .config "--json", .program "a.bas", .seed 7]) ∧
      parse arguments = parse ["--config", "--json", "--seed", "5", "--seed", "+07", "a.bas"] := by
  intro arguments
  have hfive : Written (.seed 5) ["--seed", "5"] :=
    .seed ⟨['5'], .inl rfl, by decide, ⟨List.all_eq_true.1 rfl, by decide⟩, rfl⟩
  have hseven : Written (.seed 7) ["--seed", "+07"] :=
    .seed ⟨['0', '7'], .inr rfl, by decide, ⟨List.all_eq_true.1 rfl, by decide⟩, rfl⟩
  have hprogram : Written (.program "a.bas") ["a.bas"] := .program (by decide)
  have hspells : Spells [.seed 5, .config "--json", .program "a.bas", .seed 7] arguments :=
    .cons hfive (.cons (.config _) (.cons hprogram (.cons hseven .nil)))
  have hspells' : Spells [.config "--json", .seed 5, .seed 7, .program "a.bas"]
      ["--config", "--json", "--seed", "5", "--seed", "+07", "a.bas"] :=
    .cons (.config _) (.cons hfive (.cons hseven (.cons hprogram .nil)))
  obtain ⟨hok, hunique, hreordered, -⟩ := parse_accepts_segments arguments
  refine ⟨(hok _).2 ⟨_, hspells, rfl, by decide, rfl, rfl⟩, fun _ h => hunique _ _ h hspells, ?_⟩
  exact hreordered _ _ _ hspells hspells' fun kind => by cases kind <;> rfl

end QubitBasic.RunArguments

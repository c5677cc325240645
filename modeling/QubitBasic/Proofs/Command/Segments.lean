/-
  The grammar of the arguments of `run`.

  A segment is an option with its value, a flag, or the name of a program, and `Spells` says which
  arguments a sequence of segments is written as.  A value is any argument, so what it looks like does not
  matter, and the first argument of a segment tells its kind.  Hence arguments are cut into segments in one
  way only (`Spells.unique`).

  What can be wrong at some place is told by `Offends`: a value is missing or is no number, an option is
  unknown, or a second program is named.  Arguments go on with a segment or offend
  (`exists_written_or_offends`), so every list is fine segments to its end, or fine segments up to a first
  offence (`exists_fine_or_offendsFirst`).  Nothing here refers to how arguments are read.
-/
import QubitBasic.Command.Arguments
import QubitBasic.Proofs.Text.Word

namespace QubitBasic.RunArguments

open Text

/-- A segment of the arguments of `run`. -/
inductive Segment where
  | json
  | seed (n : UInt64)
  | config (path : String)
  | program (path : String)
  deriving DecidableEq, Repr

namespace Segment

/-- What a segment is about. -/
inductive Kind where
  | json
  | seed
  | config
  | program
  deriving DecidableEq, Repr

def kind : Segment → Kind
  | .json => .json
  | .seed _ => .seed
  | .config _ => .config
  | .program _ => .program

def seed? : Segment → Option UInt64
  | .seed n => some n
  | _ => none

def config? : Segment → Option String
  | .config path => some path
  | _ => none

def program? : Segment → Option String
  | .program path => some path
  | _ => none

/-- The arguments that a segment is written as.  Any argument may follow `--config`, also one that
    looks like an option. -/
inductive Written : Segment → List String → Prop
  | json : Written .json ["--json"]
  | seed {value : String} {n : UInt64} : Denotes value.toList n.toNat →
      Written (.seed n) ["--seed", value]
  | config (path : String) : Written (.config path) ["--config", path]
  | program {path : String} : ¬ "--".toList <+: path.toList → Written (.program path) [path]

end Segment

open Segment

/-- The arguments are the segments, written one after the other. -/
inductive Spells : List Segment → List String → Prop
  | nil : Spells [] []
  | cons {segment : Segment} {segments : List Segment} {words rest : List String} :
      Written segment words → Spells segments rest → Spells (segment :: segments) (words ++ rest)

/-- What the segments ask for: exactly one program, JSON if that is said anywhere, and the last seed and
    the last configuration, if there are any. -/
structure Asks (segments : List Segment) (result : RunArguments) : Prop where
  path : segments.filterMap program? = [result.path]
  json : result.json = true ↔ .json ∈ segments
  seed : result.seed = (segments.filterMap seed?).getLast?
  config : result.config = (segments.filterMap config?).getLast?

/-- No program is named after another one. -/
def Fine (segments : List Segment) : Prop := (segments.filterMap program?).length ≤ 1

/-- What is wrong with the segment at the start of the arguments, behind the segments `before`. -/
inductive Offends (before : List Segment) : List String → Error → Prop
  | seedMissing : Offends before ["--seed"] .seedMissing
  | badSeed {value : String} {error : NumeralError} {rest : List String} :
      WordFault value.toList error → Offends before ("--seed" :: value :: rest) (.badSeed value error)
  | configMissing : Offends before ["--config"] .configMissing
  | unknownOption {option : String} {rest : List String} : "--".toList <+: option.toList →
      option ∉ ["--json", "--seed", "--config"] →
      Offends before (option :: rest) (.unknownOption option)
  | unexpected {argument : String} {rest : List String} : ¬ "--".toList <+: argument.toList →
      before.filterMap program? ≠ [] → Offends before (argument :: rest) (.unexpected argument)

/-- The leftmost segment that is not fine is wrong with this error. -/
def OffendsFirst (arguments : List String) (error : Error) : Prop :=
  ∃ segments before rest, arguments = before ++ rest ∧ Spells segments before ∧ Fine segments ∧
    Offends segments rest error

/-- The arguments are written segments, and none of them names a program. -/
def NamesNoProgram (arguments : List String) : Prop :=
  ∃ segments, Spells segments arguments ∧ segments.filterMap program? = []

/-- The same segments, where those of different kinds may have changed places. -/
def Reordered (segments segments' : List Segment) : Prop :=
  ∀ kind : Kind, segments.filter (·.kind = kind) = segments'.filter (·.kind = kind)

variable {segment segment' : Segment} {segments segments' before : List Segment}
  {words words' rest rest' arguments : List String}

/-! ## One way to cut -/

/-- All options start with two dashes, so what does not is none of them. -/
theorem ne_of_not_dashes {path option : String} (h : ¬ "--".toList <+: path.toList)
    (hoption : option ∈ ["--json", "--seed", "--config"]) : path ≠ option := by
  have hdashes : ∀ option ∈ ["--json", "--seed", "--config"], "--".toList <+: option.toList := by
    decide
  rintro rfl
  exact h (hdashes path hoption)

theorem Segment.Written.ne_nil (h : Written segment words) : words ≠ [] := by
  cases h <;> exact List.cons_ne_nil _ _

/-- The first argument of a segment tells its kind, and so where it ends. -/
theorem Segment.Written.unique (h : Written segment words) (h' : Written segment' words')
    (heq : words ++ rest = words' ++ rest') : segment = segment' ∧ rest = rest' := by
  cases h with
  | json =>
    cases h' with
    | json => exact ⟨rfl, (List.cons.inj heq).2⟩
    | seed => simp at heq
    | config => simp at heq
    | program hpath => exact absurd (List.cons.inj heq).1.symm (ne_of_not_dashes hpath (by simp))
  | seed hvalue =>
    cases h' with
    | json => simp at heq
    | seed hvalue' =>
      obtain ⟨rfl, hrest⟩ := List.cons.inj (List.cons.inj heq).2
      have hsame := Except.ok.inj (hvalue.word_eq.symm.trans hvalue'.word_eq)
      exact ⟨by rw [UInt64.toNat_inj.1 hsame], hrest⟩
    | config => simp at heq
    | program hpath => exact absurd (List.cons.inj heq).1.symm (ne_of_not_dashes hpath (by simp))
  | config path =>
    cases h' with
    | json => simp at heq
    | seed => simp at heq
    | config path' =>
      obtain ⟨rfl, hrest⟩ := List.cons.inj (List.cons.inj heq).2
      exact ⟨rfl, hrest⟩
    | program hpath => exact absurd (List.cons.inj heq).1.symm (ne_of_not_dashes hpath (by simp))
  | program hpath =>
    cases h' with
    | json => exact absurd (List.cons.inj heq).1 (ne_of_not_dashes hpath (by simp))
    | seed => exact absurd (List.cons.inj heq).1 (ne_of_not_dashes hpath (by simp))
    | config => exact absurd (List.cons.inj heq).1 (ne_of_not_dashes hpath (by simp))
    | program =>
      obtain ⟨rfl, hrest⟩ := List.cons.inj heq
      exact ⟨rfl, hrest⟩

theorem spells_nil_iff : Spells [] arguments ↔ arguments = [] := by
  constructor
  · rintro ⟨⟩
    rfl
  · rintro rfl
    exact .nil

theorem spells_cons_iff :
    Spells (segment :: segments) arguments ↔
      ∃ words rest, arguments = words ++ rest ∧ Written segment words ∧ Spells segments rest := by
  constructor
  · intro h
    cases h with
    | cons hwritten hspells => exact ⟨_, _, rfl, hwritten, hspells⟩
  · rintro ⟨words, rest, rfl, hwritten, hspells⟩
    exact .cons hwritten hspells

/-- A list of arguments is cut into segments in one way only. -/
theorem Spells.unique (h : Spells segments arguments) (h' : Spells segments' arguments) :
    segments = segments' := by
  induction segments generalizing segments' arguments with
  | nil =>
    cases segments' with
    | nil => rfl
    | cons segment' segments' =>
      obtain ⟨words, rest, heq, hwritten, -⟩ := spells_cons_iff.1 h'
      rw [spells_nil_iff.1 h] at heq
      exact absurd (List.append_eq_nil_iff.1 heq.symm).1 hwritten.ne_nil
  | cons segment segments ih =>
    obtain ⟨words, rest, rfl, hwritten, hspells⟩ := spells_cons_iff.1 h
    cases segments' with
    | nil => exact absurd (List.append_eq_nil_iff.1 (spells_nil_iff.1 h')).1 hwritten.ne_nil
    | cons segment' segments' =>
      obtain ⟨words', rest', heq, hwritten', hspells'⟩ := spells_cons_iff.1 h'
      obtain ⟨rfl, rfl⟩ := hwritten.unique hwritten' heq
      rw [ih hspells hspells']

/-- Arguments can be cut wherever their segments can. -/
theorem Spells.exists_append {after : List Segment} (h : Spells (before ++ after) arguments) :
    ∃ words rest, arguments = words ++ rest ∧ Spells before words ∧ Spells after rest := by
  induction before generalizing arguments with
  | nil => exact ⟨[], arguments, rfl, .nil, h⟩
  | cons segment before ih =>
    obtain ⟨words, rest, rfl, hwritten, hspells⟩ := spells_cons_iff.1 h
    obtain ⟨words', rest', rfl, hbefore, hafter⟩ := ih hspells
    exact ⟨words ++ words', rest', by simp, .cons hwritten hbefore, hafter⟩

/-! ## Fine segments and the first offence -/

theorem fine_of_programs_eq_nil (h : segments.filterMap program? = []) : Fine segments := by
  rw [Fine, h]
  exact Nat.zero_le 1

theorem fine_of_programs_eq_singleton {path : String} (h : segments.filterMap program? = [path]) :
    Fine segments := by
  rw [Fine, h]
  exact Nat.le_refl 1

theorem Fine.of_append (h : Fine (segments ++ segments')) : Fine segments := by
  rw [Fine, List.filterMap_append, List.length_append] at h
  exact Nat.le_trans (Nat.le_add_right _ _) h

theorem Fine.concat (h : Fine segments) (hsegment : segment.program? = none) :
    Fine (segments ++ [segment]) := by
  rw [Fine, List.filterMap_append, List.filterMap_cons_none hsegment, List.filterMap_nil,
    List.append_nil]
  exact h

/-- A program is the first one that is named. -/
theorem fine_concat_program_iff {path : String} :
    Fine (segments ++ [.program path]) ↔ segments.filterMap program? = [] := by
  rw [Fine, List.filterMap_append, List.length_append]
  show _ + 1 ≤ 1 ↔ _
  rw [← List.length_eq_zero_iff]
  omega

/-- Arguments start with a segment, or something is wrong at their start. -/
theorem exists_written_or_offends (hfine : Fine before) (argument : String) (rest : List String) :
    (∃ segment words rest', argument :: rest = words ++ rest' ∧ Written segment words ∧
      Fine (before ++ [segment])) ∨
    ∃ error, Offends before (argument :: rest) error := by
  by_cases hdashes : "--".toList <+: argument.toList
  · by_cases hjson : argument = "--json"
    · subst hjson
      exact .inl ⟨.json, _, rest, rfl, .json, hfine.concat rfl⟩
    by_cases hseed : argument = "--seed"
    · subst hseed
      cases rest with
      | nil => exact .inr ⟨_, .seedMissing⟩
      | cons value rest =>
        rcases denotes_or_wordFault value.toList with ⟨n, hn⟩ | ⟨error, herror⟩
        · have hword : (UInt64.ofNat n).toNat = n :=
            UInt64.toNat_ofNat_of_lt (Nat.lt_succ_of_le hn.le_greatestWord)
          exact .inl ⟨.seed (UInt64.ofNat n), _, rest, rfl, .seed (hword.symm ▸ hn),
            hfine.concat rfl⟩
        · exact .inr ⟨_, .badSeed herror⟩
    by_cases hconfig : argument = "--config"
    · subst hconfig
      cases rest with
      | nil => exact .inr ⟨_, .configMissing⟩
      | cons path rest => exact .inl ⟨.config path, _, rest, rfl, .config path, hfine.concat rfl⟩
    exact .inr ⟨_, .unknownOption hdashes (by simp [hjson, hseed, hconfig])⟩
  · by_cases hnamed : before.filterMap program? = []
    · exact .inl ⟨.program argument, _, rest, rfl, .program hdashes,
        fine_concat_program_iff.2 hnamed⟩
    · exact .inr ⟨_, .unexpected hdashes hnamed⟩

/-- Behind fine segments, arguments go on with fine segments to their end or to an offence. -/
theorem spells_or_offends (before : List Segment) (hfine : Fine before) (arguments : List String) :
    (∃ segments, Spells segments arguments ∧ Fine (before ++ segments)) ∨
    ∃ segments words rest error, arguments = words ++ rest ∧ Spells segments words ∧
      Fine (before ++ segments) ∧ Offends (before ++ segments) rest error := by
  -- A segment takes one argument or two, so the induction is on how many arguments are left.
  induction hlength : arguments.length using Nat.strongRecOn generalizing before arguments with
  | ind n ih =>
    subst hlength
    cases arguments with
    | nil => exact .inl ⟨[], .nil, by simpa using hfine⟩
    | cons argument rest =>
      rcases exists_written_or_offends hfine argument rest with
        ⟨segment, words, rest', heq, hwritten, hfine'⟩ | ⟨error, herror⟩
      · have hlt : rest'.length < (argument :: rest).length := by
          have hpos := List.length_pos_iff.2 hwritten.ne_nil
          rw [heq, List.length_append]
          omega
        rcases ih _ hlt _ hfine' rest' rfl with
          ⟨segments, hspells, hall⟩ | ⟨segments, words', rest'', error, rfl, hspells, hall, herror⟩
        · rw [List.append_assoc] at hall
          exact .inl ⟨segment :: segments, heq ▸ .cons hwritten hspells, hall⟩
        · rw [List.append_assoc] at hall herror
          exact .inr ⟨segment :: segments, words ++ words', rest'', error, by simp [heq],
            .cons hwritten hspells, hall, herror⟩
      · exact .inr ⟨[], [], argument :: rest, error, rfl, .nil, by simpa using hfine,
          by simpa using herror⟩

/-- Arguments are fine segments to their end, or there is a first offence. -/
theorem exists_fine_or_offendsFirst (arguments : List String) :
    (∃ segments, Spells segments arguments ∧ Fine segments) ∨
      ∃ error, OffendsFirst arguments error := by
  rcases spells_or_offends [] (Nat.zero_le 1) arguments with
    hfine | ⟨segments, words, rest, error, heq, hspells, hfine, herror⟩
  · exact .inl hfine
  · exact .inr ⟨error, segments, words, rest, heq, hspells, hfine, herror⟩

/-- Where a second program is named, it is the first offence. -/
theorem Spells.offendsFirst_second_program (h : Spells segments arguments) {first second : String}
    {more : List String} (hprograms : segments.filterMap program? = first :: second :: more) :
    OffendsFirst arguments (.unexpected second) := by
  -- Cut the segments right before the second one that names a program.
  obtain ⟨xs, x, ys, rfl, hxs, hx, hrest⟩ := List.filterMap_eq_cons_iff.1 hprograms
  obtain ⟨ys, y, zs, rfl, hys, hy, -⟩ := List.filterMap_eq_cons_iff.1 hrest
  have hone : (xs ++ x :: ys).filterMap program? = [first] := by
    rw [List.filterMap_append, List.filterMap_eq_nil_iff.2 hxs, List.filterMap_cons_some hx,
      List.filterMap_eq_nil_iff.2 hys]
    rfl
  have hcut : xs ++ x :: (ys ++ y :: zs) = (xs ++ x :: ys) ++ y :: zs := by simp
  rw [hcut] at h
  obtain ⟨words, rest, rfl, hbefore, hafter⟩ := h.exists_append
  obtain ⟨_, rest', rfl, hwritten, -⟩ := spells_cons_iff.1 hafter
  cases hwritten with
  | json => cases hy
  | seed => cases hy
  | config => cases hy
  | program hsecond =>
    obtain rfl := Option.some.inj hy
    have hnamed : (xs ++ x :: ys).filterMap program? ≠ [] := hone ▸ List.cons_ne_nil _ _
    exact ⟨_, words, _, rfl, hbefore, fine_of_programs_eq_singleton hone, .unexpected hsecond hnamed⟩

/-! ## Segments in another order -/

/-- Contents that only segments of one kind have stand in the same order. -/
theorem Reordered.filterMap_eq (h : Reordered segments segments') {α : Type}
    {f : Segment → Option α} (kind : Kind) (hf : ∀ segment, segment.kind ≠ kind → f segment = none) :
    segments.filterMap f = segments'.filterMap f := by
  have hkind : ∀ xs : List Segment, xs.filterMap f = (xs.filter (·.kind = kind)).filterMap f := by
    intro xs
    rw [List.filterMap_filter]
    congr 1
    funext segment
    by_cases hsegment : segment.kind = kind
    · simp [hsegment]
    · simp [hsegment, hf segment hsegment]
  rw [hkind segments, hkind segments', h kind]

theorem Reordered.contents_eq (h : Reordered segments segments') :
    segments.filterMap program? = segments'.filterMap program? ∧
      segments.filterMap seed? = segments'.filterMap seed? ∧
      segments.filterMap config? = segments'.filterMap config? := by
  refine ⟨h.filterMap_eq .program ?_, h.filterMap_eq .seed ?_, h.filterMap_eq .config ?_⟩ <;>
    · intro segment hkind
      cases segment <;> first | rfl | exact absurd rfl hkind

/-- What segments ask for depends only on the order of those of one kind. -/
theorem Reordered.asks {result : RunArguments} (h : Reordered segments segments')
    (hasks : Asks segments result) : Asks segments' result := by
  obtain ⟨hprogram, hseed, hconfig⟩ := h.contents_eq
  have hjson : .json ∈ segments ↔ .json ∈ segments' := by
    have hmem : ∀ xs : List Segment, .json ∈ xs ↔ .json ∈ xs.filter (·.kind = .json) := by
      intro xs
      simp [kind]
    rw [hmem segments, hmem segments', h .json]
  exact ⟨hprogram ▸ hasks.path, hasks.json.trans hjson, hseed ▸ hasks.seed,
    hconfig ▸ hasks.config⟩

end QubitBasic.RunArguments

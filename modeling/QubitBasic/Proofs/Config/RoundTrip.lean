/-
  Configurations are read back from their texts.

  `Json.Lists members text` says that a text is an object with the given members, and `GivenBy` what those
  members have to be in order to give a configuration: every field is named at most once, a field that is
  named has the value that is written for it, and a field that is not named has its default.  Nothing is
  said about the order of the members, or about members of other names; the text of their values is any
  value of the grammar.

  Two facts carry the round trip.  A field is looked up among all members with its name, so the order does
  not matter, and there is at most one (`GivenBy.member?_cases`).  And each field is converted by itself:
  its conversion undoes what was written, or the default stands in (`ofFields?_eq_some`).  What `compact`
  and `pretty` write is one way to give a configuration (`givenBy_all`).
-/
import Mathlib.Data.List.Nodup
import QubitBasic.Config.Json
import QubitBasic.Proofs.Json.Grammar

namespace QubitBasic.Config

open Json

/-! ## Texts that give a configuration -/

/-- Two configurations have the same value in a field. -/
def AgreesOn (config other : Config) : Field → Prop
  | .maxSteps => config.maxSteps = other.maxSteps
  | .timeBudget => config.timeBudget = other.timeBudget
  | .maxQubits => config.maxQubits = other.maxQubits
  | .missingTarget => config.missingTarget = other.missingTarget
  | .duplicates => config.duplicates = other.duplicates
  | .seed => config.seed = other.seed
  | .quantum => config.quantum = other.quantum

/-- The members of an object name fields of `config`, each once, with the values that are written for
    them, and leave out only fields that have their defaults.  Members with other names may hold
    anything. -/
structure GivenBy (config : Config) (members : List (String × String)) : Prop where
  once : ∀ field : Field, (members.map Prod.fst).count field.name ≤ 1
  written : ∀ (field : Field) (value : String), (field.name, value) ∈ members →
    value = (config.fieldJson field).compact
  omitted : ∀ field : Field, field.name ∉ members.map Prod.fst → config.AgreesOn {} field

/-! ## Fields that are written -/

theorem write_optionalJson (n : Option UInt64) (style style' : Style) (level level' : Nat) :
    write style level (optionalJson n) = write style' level' (optionalJson n) := by
  cases n <;> rfl

/-- A field is written in one way, whatever the style. -/
theorem write_fieldJson (config : Config) (field : Field) (style : Style) (level : Nat) :
    write style level (config.fieldJson field) = (config.fieldJson field).compact.toList := by
  rw [compact, String.toList_ofList]
  cases field with
  | timeBudget => exact write_optionalJson ..
  | seed => exact write_optionalJson ..
  | _ => rfl

theorem denotes_optionalJson (n : Option UInt64) :
    Denotes (optionalJson n) (optionalJson n).compact.toList := by
  rw [compact, String.toList_ofList]
  cases n with
  | none => exact denotes_null
  | some n => exact denotes_natural n.toNat

/-- The text of a field is read as the field. -/
theorem denotes_fieldJson (config : Config) (field : Field) :
    Denotes (config.fieldJson field) (config.fieldJson field).compact.toList := by
  cases field with
  | timeBudget => exact denotes_optionalJson _
  | seed => exact denotes_optionalJson _
  | maxSteps | maxQubits =>
    rw [compact, String.toList_ofList]
    exact denotes_natural _
  | missingTarget | duplicates =>
    rw [compact, String.toList_ofList]
    exact denotes_ofString _
  | quantum =>
    rw [compact, String.toList_ofList, fieldJson]
    cases config.quantum with
    | true => exact denotes_true
    | false => exact denotes_false

/-! ## Fields that are read -/

theorem word?_wordJson (n : UInt64) : word? (wordJson n) = some n := by
  have hle : n.toNat ≤ Text.greatestWord := Nat.le_of_lt_succ n.toNat_lt
  rw [wordJson, word?, if_pos hle, UInt64.ofNat_toNat]

theorem optionalWord?_optionalJson (n : Option UInt64) : optionalWord? (optionalJson n) = some n := by
  cases n with
  | none => rfl
  | some n =>
    show (word? (wordJson n)).map some = _
    rw [word?_wordJson]
    rfl

theorem targetPolicy?_ofString (policy : TargetPolicy) :
    targetPolicy? (.ofString policy.name) = some policy := by
  cases policy <;> rfl

theorem duplicatePolicy?_ofString (policy : DuplicatePolicy) :
    duplicatePolicy? (.ofString policy.name) = some policy := by
  cases policy <;> rfl

/-- A configuration is read from its fields, each of which is either given or has its default. -/
theorem ofFields?_eq_some {config : Config} {get : Field → Option (Option Json)}
    (h : ∀ field, get field = some none ∧ config.AgreesOn {} field ∨
      get field = some (some (config.fieldJson field))) : ofFields? get = some config := by
  have hread : ∀ {α : Type} (field : Field) (convert : Option Json → Option α) (value : α),
      (config.AgreesOn {} field → convert none = some value) →
      convert (some (config.fieldJson field)) = some value →
      ∃ given, get field = some given ∧ convert given = some value := by
    intro α field convert value hdefault hgiven
    rcases h field with ⟨hnone, hagrees⟩ | hsome
    · exact ⟨none, hnone, hdefault hagrees⟩
    · exact ⟨_, hsome, hgiven⟩
  simp only [ofFields?, Option.bind_eq_bind, Option.bind_eq_some_iff, Option.pure_def]
  exact ⟨_, hread .maxSteps _ _ (fun h => congrArg some h.symm) (word?_wordJson _),
    _, hread .timeBudget _ _ (fun h => congrArg some h.symm) (optionalWord?_optionalJson _),
    _, hread .maxQubits _ _ (fun h => congrArg some h.symm) (word?_wordJson _),
    _, hread .missingTarget _ _ (fun h => congrArg some h.symm) (targetPolicy?_ofString _),
    _, hread .duplicates _ _ (fun h => congrArg some h.symm) (duplicatePolicy?_ofString _),
    _, hread .seed _ _ (fun h => congrArg some h.symm) (optionalWord?_optionalJson _),
    _, hread .quantum _ _ (fun h => congrArg some h.symm) rfl, rfl⟩

/-! ## Members that are read -/

variable {config : Config} {members : List (String × String)} {object : List (Option String × Json)}

/-- A name that is listed at most once is the name of no member or of one. -/
theorem filter_name_cases {name : String}
    (honce : (members.map Prod.fst).count name ≤ 1) :
    (members.filter (·.1 == name) = [] ∧ name ∉ members.map Prod.fst) ∨
      ∃ value, members.filter (·.1 == name) = [(name, value)] ∧ (name, value) ∈ members := by
  rw [List.count_eq_countP, List.countP_map, List.countP_eq_length_filter] at honce
  cases hfilter : members.filter (·.1 == name) with
  | nil =>
    refine .inl ⟨rfl, fun hname => ?_⟩
    obtain ⟨member, hmember, rfl⟩ := List.mem_map.1 hname
    exact List.filter_eq_nil_iff.1 hfilter member hmember (beq_self_eq_true member.1)
  | cons member others =>
    obtain ⟨hmember, hname⟩ := List.mem_filter.1 (hfilter ▸ List.mem_cons_self ..)
    obtain ⟨name', value⟩ := member
    obtain rfl : name' = name := eq_of_beq hname
    obtain rfl : others = [] := by
      have hlength : (members.filter (·.1 == name')).length ≤ 1 := honce
      rw [hfilter, List.length_cons] at hlength
      exact List.eq_nil_of_length_eq_zero (by omega)
    exact .inr ⟨value, rfl, hmember⟩

/-- The members with one name are read from those that are listed with it. -/
theorem forall₂_filter_name
    (hread : List.Forall₂ MemberRead members object) (name : String) :
    List.Forall₂ MemberRead (members.filter (·.1 == name)) (object.filter (·.1 == some name)) := by
  refine List.rel_filter ?_ hread
  intro member read hmember
  show (member.1 == name) = true ↔ (read.1 == some name) = true
  rw [hmember.1, beq_iff_eq, beq_iff_eq, Option.some.injEq]

/-- Each field is either not listed or read as it was written. -/
theorem GivenBy.member?_cases (hconfig : config.GivenBy members)
    (hread : List.Forall₂ MemberRead members object) (field : Field) :
    member? object field = some none ∧ config.AgreesOn {} field ∨
      member? object field = some (some (config.fieldJson field)) := by
  have hfilter := forall₂_filter_name hread field.name
  rcases filter_name_cases (hconfig.once field) with ⟨hnone, hname⟩ | ⟨value, hone, hmember⟩
  · rw [hnone, List.forall₂_nil_left_iff] at hfilter
    refine .inl ⟨?_, hconfig.omitted field hname⟩
    rw [member?, hfilter]
  · rw [hone] at hfilter
    obtain ⟨⟨name, json⟩, _, ⟨-, hjson⟩, hnil, hobject⟩ := List.forall₂_cons_left_iff.1 hfilter
    obtain rfl := List.forall₂_nil_left_iff.1 hnil
    -- The value is written as the field is, and a text is read in one way only.
    have hfield : json = config.fieldJson field := by
      rw [hconfig.written field value hmember] at hjson
      exact hjson.unique (denotes_fieldJson config field).reads
    refine .inr ?_
    rw [member?, hobject, hfield]

theorem all_isSome (hread : List.Forall₂ MemberRead members object) :
    object.all (·.1.isSome) = true := by
  induction hread with
  | nil => rfl
  | cons hmember _ ih =>
    rw [List.all_cons, hmember.1, ih]
    rfl

theorem ofJson?_object (hconfig : config.GivenBy members)
    (hread : List.Forall₂ MemberRead members object) : ofJson? (.object object) = some config := by
  rw [ofJson?, if_pos (all_isSome hread)]
  exact ofFields?_eq_some (hconfig.member?_cases hread)

/-- A text that gives a valid configuration is read as that configuration. -/
theorem parse_of_givenBy (hcheck : config.check = .ok ()) {text : String}
    (hlists : Lists members text) (hconfig : config.GivenBy members) : parse text = .ok config := by
  obtain ⟨object, hparse, hread⟩ := hlists.parse?
  rw [parse, hparse, Option.bind_some, ofJson?_object hconfig hread]
  show config.check.map _ = _
  rw [hcheck]
  rfl

/-! ## Configurations that are written -/

theorem mem_all (field : Field) : field ∈ Field.all := by
  cases field <;> decide

theorem nodup_names : (Field.all.map Field.name).Nodup := by decide

theorem name_injective {field other : Field} (h : field.name = other.name) : field = other :=
  List.inj_on_of_nodup_map nodup_names (mem_all field) (mem_all other) h

/-- All fields together give a configuration. -/
theorem givenBy_all (config : Config) :
    config.GivenBy (Field.all.map fun field => (field.name, (config.fieldJson field).compact)) where
  once field := by
    rw [List.map_map]
    exact List.nodup_iff_count_le_one.1 nodup_names field.name
  written field value hmember := by
    obtain ⟨other, -, heq⟩ := List.mem_map.1 hmember
    obtain ⟨hname, rfl⟩ := Prod.mk.inj heq
    rw [name_injective hname]
  omitted field hname := by
    refine absurd ?_ hname
    rw [List.map_map]
    exact List.mem_map_of_mem (mem_all field)

/-- A valid configuration is read back from its text, whatever blanks stand in it. -/
theorem parse_write_toJson (hcheck : config.check = .ok ()) {style : Style}
    (hstyle : style.Blank) : parse (String.ofList (write style 0 config.toJson)) = .ok config := by
  have hlists := lists_write hstyle
    (Field.all.map fun field => (field.name, config.fieldJson field)) fun member hmember => by
      obtain ⟨field, -, rfl⟩ := List.mem_map.1 hmember
      rw [write_fieldJson]
      exact (denotes_fieldJson config field).derives
  refine parse_of_givenBy hcheck hlists ?_
  rw [List.map_map]
  simp only [Function.comp_def, write_fieldJson, String.ofList_toList]
  exact givenBy_all config

/-! ## Configurations that are accepted -/

/-- A valid configuration has a step, a register within bounds and time. -/
theorem bounds_of_check (hcheck : config.check = .ok ()) :
    1 ≤ config.maxSteps ∧ 1 ≤ config.maxQubits ∧ config.maxQubits ≤ 30 ∧
      config.timeBudget ≠ some 0 := by
  rw [check] at hcheck
  split at hcheck
  · cases hcheck
  rename_i hsteps
  split at hcheck
  · cases hcheck
  rename_i hqubits
  split at hcheck
  · cases hcheck
  rename_i htime
  obtain ⟨hone, hmost⟩ := not_or.1 hqubits
  rw [UInt64.le_iff_toNat_le, UInt64.le_iff_toNat_le, UInt64.le_iff_toNat_le]
  refine ⟨?_, ?_, Nat.le_of_not_lt hmost, htime⟩
  · exact Nat.one_le_iff_ne_zero.2 fun h => hsteps (UInt64.toNat_inj.1 h)
  · exact Nat.one_le_iff_ne_zero.2 fun h => hone (UInt64.toNat_inj.1 h)

theorem check_of_parse {text : String} (h : parse text = .ok config) :
    config.check = .ok () := by
  rw [parse] at h
  split at h
  · cases h
  · rename_i read _
    cases hcheck : read.check with
    | error error =>
      rw [hcheck] at h
      cases h
    | ok _ =>
      rw [hcheck] at h
      cases h
      exact hcheck

/-! ## The round trip -/

theorem blank_compact : Style.Blank ⟨fun _ => [], [':']⟩ where
  lineBreak _ := spaces_nil
  colon := ⟨[], spaces_nil, rfl⟩

theorem blank_pretty :
    Style.Blank ⟨fun level => '\n' :: List.replicate (2 * level) ' ', [':', ' ']⟩ where
  lineBreak level c hc := by
    rcases List.mem_cons.1 hc with rfl | hc
    · decide
    · rw [(List.mem_replicate.1 hc).2]
      decide
  colon := ⟨[' '], by decide, rfl⟩

/-- Every valid configuration is read back from its text and from every object that gives it, whatever
    else the object holds; and every configuration that is read is valid. -/
theorem json_round_trip :
    (∀ config : Config, config.check = .ok () →
      parse config.toJson.compact = .ok config ∧ parse config.toJson.pretty = .ok config ∧
      ∀ (members : List (String × String)) (text : String), Lists members text →
        config.GivenBy members → parse text = .ok config) ∧
    ∀ (text : String) (config : Config), parse text = .ok config →
      config.check = .ok () ∧ 1 ≤ config.maxSteps ∧ 1 ≤ config.maxQubits ∧ config.maxQubits ≤ 30 ∧
        config.timeBudget ≠ some 0 := by
  refine ⟨fun config hcheck => ?_, fun text config hparse => ?_⟩
  · exact ⟨parse_write_toJson hcheck blank_compact, parse_write_toJson hcheck blank_pretty,
      fun members text hlists hconfig => parse_of_givenBy hcheck hlists hconfig⟩
  · have hcheck := check_of_parse hparse
    exact ⟨hcheck, bounds_of_check hcheck⟩

/-- Two fields, the name of one of them spelt with an escape, after a member of another name whose value
    holds half a surrogate pair. -/
theorem json_round_trip_after_note :
    parse ("\x7b\"note\": [-1.5e3, \x7b\"\\ud800\": null\x7d], \"\\u0073eed\" :7, " ++
        "\"goto_policy\": \"strict\"\x7d") =
      .ok { seed := some 7, missingTarget := .strict } := by
  have hnumber : Derives .value ['-', '1', '.', '5', 'e', '3'] :=
    .number (@Number.negative ['1'] ['.', '5'] ['e', '3'] (.digits rfl (by decide)) (.digits rfl)
      (.unsigned (.inl rfl) rfl))
  have hobject : Derives .value "\x7b\"\\ud800\": null\x7d".toList :=
    .ofObject (.object (.lastMember (.member spaces_nil (.unit rfl .nil) spaces_nil
      (@Derives.element [' '] _ [] (by decide) .null spaces_nil))))
  have hnote : Derives .value "[-1.5e3, \x7b\"\\ud800\": null\x7d]".toList :=
    .array (.items (@Derives.element [] _ [] spaces_nil hnumber spaces_nil)
      (.lastItem (@Derives.element [' '] _ [] (by decide) hobject spaces_nil)))
  have hnoteName : Spells "note".toList "note".toList := spells_flatMap_escape _
  have hseedName : Spells "seed".toList "\\u0073eed".toList :=
    @Spells.unit '0' '0' '7' '3' 0x73 _ _ rfl rfl rfl (spells_flatMap_escape "eed".toList)
  have hpolicyName : Spells "goto_policy".toList "goto_policy".toList := spells_flatMap_escape _
  refine (json_round_trip.1 { seed := some 7, missingTarget := .strict } rfl).2.2
    [("note", "[-1.5e3, \x7b\"\\ud800\": null\x7d]"), ("seed", "7"), ("goto_policy", "\"strict\"")]
    _ ?_ ⟨?_, ?_, ?_⟩
  · refine ⟨[], _, [], _, ?_, spaces_nil, spaces_nil,
      .object (.members (.member spaces_nil hnoteName.characters spaces_nil
          (@Derives.element [' '] _ [] (by decide) hnote spaces_nil))
        (.members (@Derives.member [' '] _ [' '] _ _ (by decide) hseedName.characters (by decide)
            (@Derives.element [] _ [] spaces_nil (denotes_natural 7).derives spaces_nil))
          (.lastMember (@Derives.member [' '] _ [] _ _ (by decide) hpolicyName.characters spaces_nil
            (@Derives.element [' '] _ [] (by decide) (denotes_ofString "strict").derives
              spaces_nil))))), ?_⟩
    · rfl
    · exact .cons ⟨hnoteName, rfl⟩ (.cons ⟨hseedName, rfl⟩ (.cons ⟨hpolicyName, rfl⟩ .nil))
  · intro field
    cases field <;> decide
  · intro field value hmember
    simp only [List.mem_cons, Prod.mk.injEq, List.not_mem_nil, or_false] at hmember
    rcases hmember with ⟨hname, rfl⟩ | ⟨hname, rfl⟩ | ⟨hname, rfl⟩
    · cases field <;> exact absurd hname (by decide)
    · obtain rfl : field = .seed := name_injective hname
      rfl
    · obtain rfl : field = .missingTarget := name_injective hname
      rfl
  · intro field hname
    cases field with
    | seed | missingTarget => exact absurd (by decide) hname
    | _ => rfl

end QubitBasic.Config

/-
  The grammar of JSON, and that the reader accepts all that it derives.

  `Derives phrase cs` says that the whole text `cs` is a phrase of the grammar

      element := blanks value blanks
      value   := 'null' | 'true' | 'false' | NUMBER | '"' CHARACTERS '"'
               | '[' blanks ']' | '[' items ']' | object
      items   := element | element ',' items
      object  := '{' blanks '}' | '{' members '}'
      members := member | member ',' members
      member  := blanks '"' CHARACTERS '"' blanks ':' element

  The phrases of an object carry the texts of its names and values as they are written, so that it can
  be said which value was read for which name.

  Reading is followed from an arbitrary state through a phrase to an arbitrary rest (`State.read`), with
  one restriction on the rest: it cannot go on a number.  The reader tells the first item of an array
  and the first name of an object from later ones, since only the first may be missing; `AwaitsValue` and
  `AwaitsName` say which states go on alike, so that a phrase is followed once and not once for every
  place where it can stand (`Derives.readsAs`).
-/
import Mathlib.Data.List.Forall2
import QubitBasic.Proofs.Json.Lexeme

namespace QubitBasic.Json

open Token

/-! ## The grammar -/

/-- Blanks between tokens. -/
def Spaces (cs : List Char) : Prop := ∀ c ∈ cs, isSpace c = true

instance (cs : List Char) : Decidable (Spaces cs) := List.decidableBAll _ cs

/-- The phrases of the grammar. -/
inductive Phrase where
  | value
  /-- A value with blanks around it. -/
  | element (value : List Char)
  | items
  /-- A name and a value; the name is the text between its quotes. -/
  | member (name value : List Char)
  /-- Members with these names and values. -/
  | members (parts : List (List Char × List Char))
  /-- An object with these names and values. -/
  | object (parts : List (List Char × List Char))

/-- The text is a phrase. -/
inductive Derives : Phrase → List Char → Prop
  | null : Derives .value ['n', 'u', 'l', 'l']
  | truth : Derives .value ['t', 'r', 'u', 'e']
  | falsity : Derives .value ['f', 'a', 'l', 's', 'e']
  | number {cs} : Number cs → Derives .value cs
  | text {cs} : Characters cs → Derives .value ('"' :: (cs ++ ['"']))
  | emptyArray {gap} : Spaces gap → Derives .value ('[' :: (gap ++ [']']))
  | array {cs} : Derives .items cs → Derives .value ('[' :: (cs ++ [']']))
  | ofObject {parts cs} : Derives (.object parts) cs → Derives .value cs
  | element {before value after} : Spaces before → Derives .value value → Spaces after →
      Derives (.element value) (before ++ (value ++ after))
  | lastItem {value cs} : Derives (.element value) cs → Derives .items cs
  | items {value cs more} : Derives (.element value) cs → Derives .items more →
      Derives .items (cs ++ ',' :: more)
  | member {before name gap value cs} : Spaces before → Characters name → Spaces gap →
      Derives (.element value) cs →
      Derives (.member name value) (before ++ '"' :: (name ++ '"' :: (gap ++ ':' :: cs)))
  | lastMember {name value cs} : Derives (.member name value) cs → Derives (.members [(name, value)]) cs
  | members {name value parts cs more} : Derives (.member name value) cs → Derives (.members parts) more →
      Derives (.members ((name, value) :: parts)) (cs ++ ',' :: more)
  | emptyObject {gap} : Spaces gap → Derives (.object []) ('\x7b' :: (gap ++ ['\x7d']))
  | object {parts cs} : Derives (.members parts) cs → Derives (.object parts) ('\x7b' :: (cs ++ ['\x7d']))

/-! ## States and texts -/

/-- The state after the text `cs`. -/
def State.read (s : State) (cs : List Char) : Option State :=
  (scan? cs).bind (·.foldlM State.step? s)

/-- The state expects a value inside `outer`, whether or not it would take the end of an array too. -/
inductive AwaitsValue : List Frame → State → Prop
  | value {outer} : AwaitsValue outer (.value outer)
  | firstItem {outer} : AwaitsValue (.array [] :: outer) (.firstItem outer)

/-- The state expects a name after `members`, whether or not it would take the end of the object too. -/
inductive AwaitsName : List (Option String × Json) → List Frame → State → Prop
  | firstName {outer} : AwaitsName [] outer (.firstName outer)
  | nextName {members outer} : AwaitsName members outer (.nextName members outer)

variable {s s' : State} {c : Char} {cs rest gap name : List Char} {token : Token} {json : Json}
  {outer : List Frame} {members : List (Option String × Json)}

theorem State.read_nil (s : State) : s.read [] = some s := by
  rw [State.read, scan?]
  rfl

theorem State.read_spaces (h : Spaces gap) (s : State) (cs : List Char) :
    s.read (gap ++ cs) = s.read cs := by
  induction gap with
  | nil => rfl
  | cons c gap ih =>
    have hread : s.read (c :: (gap ++ cs)) = s.read (gap ++ cs) := by
      rw [State.read, scan?, if_pos (h c (List.mem_cons_self ..)), State.read]
    rw [List.cons_append, hread]
    exact ih fun c hc => h c (List.mem_cons_of_mem _ hc)

theorem eq_of_isSpace (h : isSpace c = true) : c = ' ' ∨ c = '\t' ∨ c = '\n' ∨ c = '\r' := by
  simpa [isSpace, or_assoc] using h

/-- A token does not start with a blank. -/
theorem isSpace_of_next? (h : next? (c :: cs) = some (token, rest)) : isSpace c = false := by
  cases hspace : isSpace c with
  | false => rfl
  | true => rcases eq_of_isSpace hspace with rfl | rfl | rfl | rfl <;> cases h

/-- One token is read at a time. -/
theorem State.read_token (hnext : next? (c :: cs) = some (token, rest))
    (hstep : s.step? token = some s') : s.read (c :: cs) = s'.read rest := by
  have hscan : scan? (c :: cs) = (scan? rest).map (token :: ·) := by
    rw [scan?, if_neg (by rw [isSpace_of_next? hnext]; exact Bool.false_ne_true)]
    split
    · rename_i hnone
      rw [hnext] at hnone
      cases hnone
    · rename_i token' rest' hsome
      rw [hnext] at hsome
      cases hsome
      rfl
  rw [State.read, hscan, State.read]
  cases scan? rest with
  | none => rfl
  | some tokens =>
    show (token :: tokens).foldlM State.step? s = _
    rw [List.foldlM_cons, hstep]
    rfl

theorem State.read_char (h : ofChar? c = some token) (hstep : s.step? token = some s') :
    s.read (c :: cs) = s'.read cs := by
  refine State.read_token ?_ hstep
  rw [next?, h]

theorem State.read_text {chars : Option (List Char)}
    (h : string? cs = some (chars, rest)) (hstep : s.step? (.text (chars.map String.ofList)) = some s') :
    s.read ('"' :: cs) = s'.read rest := by
  refine State.read_token ?_ hstep
  show (string? cs).map _ = _
  rw [h]
  rfl

/-! ### What the next token has to be -/

theorem AwaitsValue.step? (h : AwaitsValue outer s) (htoken : token ≠ .closeArray) :
    s.step? token = State.onValue outer token := by
  cases h with
  | value => rfl
  | firstItem =>
    cases token with
    | closeArray => exact absurd rfl htoken
    | _ => rfl

theorem AwaitsValue.read_openArray (h : AwaitsValue outer s) (cs : List Char) :
    s.read ('[' :: cs) = (State.firstItem outer).read cs := by
  have hstep : s.step? .openArray = some (.firstItem outer) := h.step? nofun
  exact State.read_char rfl hstep

theorem AwaitsValue.read_openObject (h : AwaitsValue outer s) (cs : List Char) :
    s.read ('\x7b' :: cs) = (State.firstName outer).read cs := by
  have hstep : s.step? .openObject = some (.firstName outer) := h.step? nofun
  exact State.read_char rfl hstep

theorem AwaitsName.step? (h : AwaitsName members outer s) (name : Option String) :
    s.step? (.text name) = some (.colon members name outer) := by
  cases h with
  | firstName => rfl
  | nextName => rfl

theorem Spaces.apart (h : Spaces gap) (hrest : Apart rest) : Apart (gap ++ rest) := by
  cases gap with
  | nil => exact hrest
  | cons c gap =>
    rcases eq_of_isSpace (h c (List.mem_cons_self ..)) with rfl | rfl | rfl | rfl <;>
      exact apart_cons (by decide)

/-! ## Values that are read -/

/-- Wherever a value is expected, `cs` is read as `json`. -/
def Reads (json : Json) (cs : List Char) : Prop :=
  ∀ outer s rest, AwaitsValue outer s → Apart rest →
    s.read (cs ++ rest) = (State.complete json outer).read rest

/-- The text between the quotes of a name is read as the name of `member`, and the text of its value as
    the value of `member`. -/
def ReadsMember (part : List Char × List Char) (member : Option String × Json) : Prop :=
  (∃ chars, member.1 = chars.map String.ofList ∧
    ∀ rest, string? (part.1 ++ '"' :: rest) = some (chars, rest)) ∧ Reads member.2 part.2

/-- A text is read in one way only. -/
theorem Reads.unique {json' : Json} (h : Reads json cs) (h' : Reads json' cs) : json = json' := by
  have hread := h [] _ [] .value apart_nil
  have hread' := h' [] _ [] .value apart_nil
  rw [hread, State.read_nil, State.read_nil] at hread'
  cases hread'
  rfl

theorem reads_scalar (hnext : ∀ rest, Apart rest → next? (c :: (cs ++ rest)) = some (.scalar json, rest)) :
    Reads json (c :: cs) := fun _ _ rest hs hrest =>
  State.read_token (hnext rest hrest) (hs.step? nofun)

theorem reads_null : Reads .null ['n', 'u', 'l', 'l'] := reads_scalar fun _ _ => rfl

theorem reads_true : Reads (.bool true) ['t', 'r', 'u', 'e'] := reads_scalar fun _ _ => rfl

theorem reads_false : Reads (.bool false) ['f', 'a', 'l', 's', 'e'] := reads_scalar fun _ _ => rfl

theorem next?_of_number? (hc : c = '-' ∨ c.isDigit = true)
    (h : number? (c :: cs) = some (json, rest)) : next? (c :: cs) = some (.scalar json, rest) := by
  have hne : ∀ d : Char, ¬ (d = '-' ∨ d.isDigit = true) → c ≠ d := fun d hd heq => hd (heq ▸ hc)
  have hnone : ofChar? c = none := by
    rw [ofChar?, if_neg (hne _ (by decide)), if_neg (hne _ (by decide)), if_neg (hne _ (by decide)),
      if_neg (hne _ (by decide)), if_neg (hne _ (by decide)), if_neg (hne _ (by decide))]
  rw [next?, hnone]
  dsimp only
  rw [if_neg (hne _ (by decide)), if_pos hc, h]
  rfl

theorem reads_number (hcs : Number cs)
    (h : ∀ rest, Apart rest → number? (cs ++ rest) = some (json, rest)) : Reads json cs := by
  obtain ⟨c, cs, rfl, hc⟩ : ∃ c cs', cs = c :: cs' ∧ (c = '-' ∨ c.isDigit = true) := by
    cases hcs with
    | positive hwhole _ _ =>
      obtain ⟨d, ds, rfl, hd⟩ := exists_cons_of_isNumeral hwhole.isNumeral
      exact ⟨d, _, rfl, .inr hd⟩
    | negative _ _ _ => exact ⟨'-', _, rfl, .inl rfl⟩
  exact reads_scalar fun rest hrest => next?_of_number? hc (h rest hrest)

theorem reads_text {chars : Option (List Char)}
    (h : ∀ rest, string? (cs ++ '"' :: rest) = some (chars, rest)) :
    Reads (.text (chars.map String.ofList)) ('"' :: (cs ++ ['"'])) := by
  intro outer s rest hs _
  rw [List.cons_append, List.append_assoc]
  exact State.read_text (h rest) (hs.step? nofun)

theorem Reads.element {before after : List Char} (h : Reads json cs) (hbefore : Spaces before)
    (hafter : Spaces after) : Reads json (before ++ (cs ++ after)) := by
  intro outer s rest hs hrest
  rw [List.append_assoc, State.read_spaces hbefore, List.append_assoc,
    h outer s _ hs (hafter.apart hrest), State.read_spaces hafter]

theorem reads_emptyArray (h : Spaces gap) : Reads (.array []) ('[' :: (gap ++ [']'])) := by
  intro outer s rest hs _
  rw [List.cons_append, hs.read_openArray, List.append_assoc, State.read_spaces h]
  exact State.read_char rfl rfl

theorem reads_emptyObject (h : Spaces gap) : Reads (.object []) ('\x7b' :: (gap ++ ['\x7d'])) := by
  intro outer s rest hs _
  rw [List.cons_append, hs.read_openObject, List.append_assoc, State.read_spaces h]
  exact State.read_char rfl rfl

/-! ## Phrases that are read -/

/-- Wherever an item is expected, `cs` is read as `items`. -/
def ReadsItems (items : List Json) (cs : List Char) : Prop :=
  ∀ before outer s rest, AwaitsValue (.array before :: outer) s → Apart rest →
    s.read (cs ++ rest) = (State.nextItem (items.reverse ++ before) outer).read rest

/-- Wherever a name is expected, `cs` is read as `members`. -/
def ReadsMembers (members : List (Option String × Json)) (cs : List Char) : Prop :=
  ∀ before outer s rest, AwaitsName before outer s → Apart rest →
    s.read (cs ++ rest) = (State.nextMember (members.reverse ++ before) outer).read rest

theorem Reads.lastItem (h : Reads json cs) : ReadsItems [json] cs :=
  fun _ _ s rest hs hrest => h _ s rest hs hrest

theorem ReadsItems.cons {items : List Json} {more : List Char} (h : Reads json cs)
    (hmore : ReadsItems items more) : ReadsItems (json :: items) (cs ++ ',' :: more) := by
  intro before outer s rest hs hrest
  rw [List.append_assoc, List.cons_append, h _ s _ hs (apart_cons (by decide)),
    State.read_char rfl rfl, hmore _ outer _ rest .value hrest, List.reverse_cons, List.append_assoc]
  rfl

theorem ReadsItems.array {items : List Json} (h : ReadsItems items cs) :
    Reads (.array items) ('[' :: (cs ++ [']'])) := by
  intro outer s rest hs _
  rw [List.cons_append, hs.read_openArray, List.append_assoc, List.singleton_append,
    h [] outer _ _ .firstItem (apart_cons (by decide)), List.append_nil]
  refine State.read_char rfl ?_
  rw [State.step?, List.reverse_reverse]

theorem readsMembers_singleton {before : List Char} {chars : Option (List Char)}
    (hbefore : Spaces before) (hname : ∀ rest, string? (name ++ '"' :: rest) = some (chars, rest))
    (hgap : Spaces gap) (h : Reads json cs) :
    ReadsMembers [(chars.map String.ofList, json)]
      (before ++ '"' :: (name ++ '"' :: (gap ++ ':' :: cs))) := by
  intro members outer s rest hs hrest
  rw [List.append_assoc, State.read_spaces hbefore, List.cons_append, List.append_assoc,
    List.cons_append, State.read_text (hname _) (hs.step? _), List.append_assoc,
    State.read_spaces hgap, List.cons_append, State.read_char rfl rfl, h _ _ rest .value hrest]
  rfl

theorem ReadsMembers.cons {member : Option String × Json} {more : List Char}
    (h : ReadsMembers [member] cs) (hmore : ReadsMembers members more) :
    ReadsMembers (member :: members) (cs ++ ',' :: more) := by
  intro before outer s rest hs hrest
  rw [List.append_assoc, List.cons_append, h _ _ s _ hs (apart_cons (by decide)),
    State.read_char rfl rfl, hmore _ outer _ rest .nextName hrest, List.reverse_singleton,
    List.reverse_cons, List.append_assoc]

theorem ReadsMembers.object (h : ReadsMembers members cs) :
    Reads (.object members) ('\x7b' :: (cs ++ ['\x7d'])) := by
  intro outer s rest hs _
  rw [List.cons_append, hs.read_openObject, List.append_assoc, List.singleton_append,
    h [] outer _ _ .firstName (apart_cons (by decide)), List.append_nil]
  refine State.read_char rfl ?_
  rw [State.step?, List.reverse_reverse]

/-- What reading a phrase comes to. -/
def ReadsAs : Phrase → List Char → Prop
  | .value, cs => ∃ json, Reads json cs
  | .element value, cs => ∃ json, Reads json value ∧ Reads json cs
  | .items, cs => ∃ items, ReadsItems items cs
  | .member name value, cs => ∃ member, ReadsMember (name, value) member ∧ ReadsMembers [member] cs
  | .members parts, cs => ∃ members, List.Forall₂ ReadsMember parts members ∧ ReadsMembers members cs
  | .object parts, cs => ∃ members, List.Forall₂ ReadsMember parts members ∧ Reads (.object members) cs

/-- Every phrase of the grammar is read to its end, and names and values are read as they are by
    themselves. -/
theorem Derives.readsAs {phrase : Phrase} (h : Derives phrase cs) : ReadsAs phrase cs := by
  induction h with
  | null => exact ⟨_, reads_null⟩
  | truth => exact ⟨_, reads_true⟩
  | falsity => exact ⟨_, reads_false⟩
  | number hnumber =>
    obtain ⟨json, hjson⟩ := hnumber.number?
    exact ⟨json, reads_number hnumber hjson⟩
  | text htext =>
    obtain ⟨chars, hchars⟩ := htext.string?
    exact ⟨_, reads_text hchars⟩
  | emptyArray hgap => exact ⟨_, reads_emptyArray hgap⟩
  | array _ ih =>
    obtain ⟨items, hitems⟩ := ih
    exact ⟨_, hitems.array⟩
  | ofObject _ ih =>
    obtain ⟨members, -, hobject⟩ := ih
    exact ⟨_, hobject⟩
  | element hbefore _ hafter ih =>
    obtain ⟨json, hjson⟩ := ih
    exact ⟨json, hjson, hjson.element hbefore hafter⟩
  | lastItem _ ih =>
    obtain ⟨json, -, hjson⟩ := ih
    exact ⟨_, hjson.lastItem⟩
  | items _ _ ih ihmore =>
    obtain ⟨json, -, hjson⟩ := ih
    obtain ⟨items, hitems⟩ := ihmore
    exact ⟨_, .cons hjson hitems⟩
  | member hbefore hname hgap _ ih =>
    obtain ⟨chars, hchars⟩ := hname.string?
    obtain ⟨json, hvalue, hjson⟩ := ih
    exact ⟨_, ⟨⟨chars, rfl, hchars⟩, hvalue⟩, readsMembers_singleton hbefore hchars hgap hjson⟩
  | lastMember _ ih =>
    obtain ⟨member, hpart, hmember⟩ := ih
    exact ⟨_, .cons hpart .nil, hmember⟩
  | members _ _ ih ihmore =>
    obtain ⟨member, hpart, hmember⟩ := ih
    obtain ⟨members, hparts, hmembers⟩ := ihmore
    exact ⟨_, .cons hpart hparts, .cons hmember hmembers⟩
  | emptyObject hgap => exact ⟨_, .nil, reads_emptyObject hgap⟩
  | object _ ih =>
    obtain ⟨members, hparts, hmembers⟩ := ih
    exact ⟨_, hparts, hmembers.object⟩

/-- A text that is read as a value is that value. -/
theorem Reads.parse? (h : Reads json cs) : parse? (String.ofList cs) = some json := by
  have hread : (State.value []).read cs = some (.done json) := by
    have hend := h [] _ [] .value apart_nil
    rwa [List.append_nil, State.read_nil] at hend
  rw [Json.parse?, String.toList_ofList]
  rw [State.read] at hread
  obtain ⟨tokens, hscan, htokens⟩ := Option.bind_eq_some_iff.1 hread
  rw [hscan]
  show ofTokens? tokens = _
  rw [ofTokens?, htokens]

/-! ## Texts that list the members of an object -/

/-- `text` is an object, perhaps with blanks around it, and its members are `members` in that order: the
    name of each, in whichever way it is spelt, and its value as it is written. -/
def Lists (members : List (String × String)) (text : String) : Prop :=
  ∃ before object after parts, text.toList = before ++ (object ++ after) ∧ Spaces before ∧
    Spaces after ∧ Derives (.object parts) object ∧
    List.Forall₂ (fun part member => Spells member.1.toList part.1 ∧ part.2 = member.2.toList)
      parts members

/-- The member was read with the name and the value that `member` lists. -/
def MemberRead (member : String × String) (read : Option String × Json) : Prop :=
  read.1 = some member.1 ∧ Reads read.2 member.2.toList

theorem ReadsMember.name_eq {part : List Char × List Char} {member : Option String × Json} {name : String}
    (h : ReadsMember part member) (hname : Spells name.toList part.1) : member.1 = some name := by
  obtain ⟨⟨chars, hmember, hchars⟩, -⟩ := h
  obtain ⟨rfl, -⟩ := Prod.mk.inj (Option.some.inj ((hname.string? []).symm.trans (hchars [])))
  rw [hmember]
  exact congrArg some String.ofList_toList

/-- The members of an object are read with the names that are spelt and the values that are written. -/
theorem Lists.parse? {members : List (String × String)} {text : String} (h : Lists members text) :
    ∃ object, parse? text = some (.object object) ∧ List.Forall₂ MemberRead members object := by
  obtain ⟨before, cs, after, parts, htext, hbefore, hafter, hderives, hparts⟩ := h
  obtain ⟨object, hreads, hobject⟩ := hderives.readsAs
  refine ⟨object, ?_, ?_⟩
  · rw [← String.ofList_toList (s := text), htext]
    exact (hobject.element hbefore hafter).parse?
  · clear htext hderives hobject
    induction hparts generalizing object with
    | nil =>
      cases hreads
      exact .nil
    | cons hpart _ ih =>
      cases hreads with
      | cons hread hreads => exact .cons ⟨hread.name_eq hpart.1, hpart.2 ▸ hread.2⟩ (ih _ hreads)

/-! ## Values that are written -/

/-- `cs` is a value, and it is read as `json`. -/
structure Denotes (json : Json) (cs : List Char) : Prop where
  derives : Derives .value cs
  reads : Reads json cs

theorem denotes_null : Denotes .null ['n', 'u', 'l', 'l'] := ⟨.null, reads_null⟩

theorem denotes_true : Denotes (.bool true) ['t', 'r', 'u', 'e'] := ⟨.truth, reads_true⟩

theorem denotes_false : Denotes (.bool false) ['f', 'a', 'l', 's', 'e'] := ⟨.falsity, reads_false⟩

theorem denotes_natural (n : Nat) : Denotes (.natural n) (Text.toDigits n) := by
  have hwhole := whole_toDigits n
  have hnumber : Number (Text.toDigits n) := by
    have hnumber := Number.positive hwhole .none .none
    rwa [List.append_nil, List.append_nil] at hnumber
  refine ⟨.number hnumber, reads_number hnumber fun rest hrest => ?_⟩
  rw [number?_whole hwhole hrest, ofDigits_toDigits]

theorem denotes_ofString (s : String) : Denotes (.ofString s) (quote (some s)) := by
  have hspells := spells_flatMap_escape s.toList
  have hreads := reads_text hspells.string?
  rw [Option.map_some, String.ofList_toList] at hreads
  exact ⟨.text hspells.characters, hreads⟩

/-! ### Objects -/

/-- The parts of a value are set apart by blanks only. -/
structure Style.Blank (style : Style) : Prop where
  lineBreak : ∀ level, Spaces (style.lineBreak level)
  colon : ∃ gap, Spaces gap ∧ style.colon = ':' :: gap

theorem spaces_nil : Spaces [] := fun _ h => by cases h

/-- The texts of the name and the value of a member. -/
def partOf (style : Style) (level : Nat) (member : String × Json) : List Char × List Char :=
  (member.1.toList.flatMap escape, write style level member.2)

/-- One member is written behind a line break; `after` is what separates it from a closing brace. -/
theorem derives_write_member {style : Style} (hstyle : style.Blank) {level : Nat} {after : List Char}
    (hafter : Spaces after) (member : String × Json)
    (h : Derives .value (write style level member.2)) :
    Derives (.member (partOf style level member).1 (partOf style level member).2)
      (style.lineBreak level ++ quote (some member.1) ++ style.colon ++
        write style level member.2 ++ after) := by
  obtain ⟨gap, hgap, hcolon⟩ := hstyle.colon
  have hmember := Derives.member (hstyle.lineBreak level)
    (spells_flatMap_escape member.1.toList).characters spaces_nil (.element hgap h hafter)
  rw [hcolon]
  simpa [quote, partOf] using hmember

theorem derives_write_members {style : Style} (hstyle : style.Blank) {level : Nat} {after : List Char}
    (hafter : Spaces after) (member : String × Json) (members : List (String × Json))
    (h : ∀ m ∈ member :: members, Derives .value (write style level m.2)) :
    Derives (.members ((member :: members).map (partOf style level)))
      (style.lineBreak level ++ quote (some member.1) ++ style.colon ++ write style level member.2 ++
        writeMembers style level (members.map fun m => (some m.1, m.2)) ++ after) := by
  induction members generalizing member with
  | nil =>
    have hmember := derives_write_member hstyle hafter member (h _ (List.mem_cons_self ..))
    rw [List.map_nil, writeMembers, List.append_nil]
    exact .lastMember hmember
  | cons next members ih =>
    have hmember := derives_write_member hstyle spaces_nil member (h _ (List.mem_cons_self ..))
    have hmore := ih next fun m hm => h m (List.mem_cons_of_mem _ hm)
    have hmembers := Derives.members hmember hmore
    simp only [List.map_cons, writeMembers]
    simpa using hmembers

/-- A written object lists its members. -/
theorem lists_write {style : Style} (hstyle : style.Blank) (members : List (String × Json))
    (h : ∀ m ∈ members, Derives .value (write style 1 m.2)) :
    Lists (members.map fun m => (m.1, String.ofList (write style 1 m.2)))
      (String.ofList (write style 0 (.ofMembers members))) := by
  refine ⟨[], write style 0 (.ofMembers members), [], members.map (partOf style 1), ?_, spaces_nil,
    spaces_nil, ?_, ?_⟩
  · rw [String.toList_ofList, List.append_nil, List.nil_append]
  · cases members with
    | nil => exact .emptyObject spaces_nil
    | cons member members =>
      have hmembers := derives_write_members hstyle (hstyle.lineBreak 0) member members h
      simp only [ofMembers, List.map_cons, write]
      simpa using Derives.object hmembers
  · rw [List.forall₂_map_left_iff, List.forall₂_map_right_iff, List.forall₂_same]
    intro member _
    exact ⟨spells_flatMap_escape _, String.toList_ofList.symm⟩

end QubitBasic.Json

/-
  Where a text stops being an expression.

  A list of tokens is `Viable` if some further tokens make an expression of it.  The reader accepts
  tokens exactly as long as what it has read is viable (`viable_iff_read`):

    * what the reader has accepted can be completed, from whatever state it is in — by an operand, if it
      expects one, and then by a parenthesis for each one that is open (`State.exists_completion`);
    * what is the beginning of an expression is accepted, since the whole expression is.

  So the token that the reader rejects is the first one with which the tokens are no longer viable, and
  where it rejects none they are an expression or the beginning of one (`ofTokens_cases`).  That each
  error says just this (`parse_error_iff`) is then a matter of viable tokens only: what stands before
  viable tokens is viable, so there is no second place where they stop being viable.
-/
import QubitBasic.Proofs.Expr.Grammar

namespace QubitBasic.Expr

/-- The whole list of tokens is an expression. -/
def IsExpr (ts : List Token) : Prop := ∃ e, Derives .expr ts e

/-- Some tokens behind the list make it an expression. -/
def Viable (ts : List Token) : Prop := ∃ us, IsExpr (ts ++ us)

/-- The tokens before place `k` are viable, and with `token`, which stands there, they are not. -/
def StopsAt (ts : List Token) (k : Nat) (token : Token) : Prop :=
  ts[k]? = some token ∧ Viable (ts.take k) ∧ ¬ Viable (ts.take (k + 1))

namespace State

/-! ## One token -/

/-- A token is accepted or it is itself the error. -/
theorem step_cases (s : State) (token : Token) :
    (∃ s', s.step token = .ok s') ∨ s.step token = .error (.unexpectedToken token) := by
  rw [State.step.eq_def]
  split
  case h_11 => exact .inr rfl
  all_goals exact .inl ⟨_, rfl⟩

theorem finish_cases (s : State) :
    (∃ e, s.finish = .ok e) ∨ s.finish = .error .unexpectedEnd := by
  rw [State.finish.eq_def]
  split
  · exact .inl ⟨_, rfl⟩
  · exact .inr rfl

/-! ## Reading up to an error -/

theorem read_append_of_error {s : State} {ts : List Token} {e : ParseError}
    (h : s.read ts = .error e) (us : List Token) : s.read (ts ++ us) = .error e := by
  rw [State.read, List.foldlM_append, show ts.foldlM State.step s = _ from h]
  rfl

theorem read_singleton (s : State) (token : Token) : s.read [token] = s.step token := by
  rw [State.read, List.foldlM_cons]
  cases s.step token <;> rfl

/-- The reader fails at one token, which is the error, and has accepted all tokens before it. -/
theorem exists_of_read_error {s : State} {ts : List Token} {e : ParseError}
    (h : s.read ts = .error e) : ∃ before token rest s', ts = before ++ token :: rest ∧
      e = .unexpectedToken token ∧ s.read before = .ok s' ∧ s'.step token = .error e := by
  induction ts generalizing s with
  | nil => cases h
  | cons token ts ih =>
    rcases s.step_cases token with ⟨next, hstep⟩ | hstep
    · rw [read_cons hstep] at h
      obtain ⟨before, fault, rest, s', rfl, he, hread, hfault⟩ := ih h
      exact ⟨token :: before, fault, rest, s', rfl, he, by rw [read_cons hstep, hread], hfault⟩
    · have hsingle : s.read [token] = .error (.unexpectedToken token) := by
        rw [read_singleton, hstep]
      have he : s.read (token :: ts) = .error (.unexpectedToken token) :=
        read_append_of_error hsingle ts
      obtain rfl : ParseError.unexpectedToken token = e := Except.error.inj (he.symm.trans h)
      exact ⟨[], token, ts, s, rfl, rfl, rfl, hstep⟩

/-! ## Completing what has been read -/

/-- After an operand the parentheses that are open can be closed. -/
theorem exists_read_closing (outer : List Level) (sum : Option (Expr × Operator)) (term : Expr) :
    ∃ sum' term', (State.operator outer sum term).read (List.replicate outer.length .rightParen) =
      .ok (.operator [] sum' term') := by
  induction outer generalizing sum term with
  | nil => exact ⟨sum, term, rfl⟩
  | cons level outer ih =>
    obtain ⟨sum', term', hread⟩ := ih level.sum (level.term (join sum term))
    refine ⟨sum', term', ?_⟩
    rw [List.length_cons, List.replicate_succ, read_cons rfl]
    exact hread

/-- From every state some tokens lead to the end of an expression. -/
theorem exists_completion (s : State) :
    ∃ us sum term, s.read us = .ok (.operator [] sum term) := by
  cases s with
  | operator outer sum term =>
    obtain ⟨sum', term', hread⟩ := exists_read_closing outer sum term
    exact ⟨_, sum', term', hread⟩
  | operand outer level =>
    -- Any operand will do.
    obtain ⟨sum', term', hread⟩ := exists_read_closing outer level.sum (level.term (.literal 0))
    exact ⟨.number 0 :: _, sum', term', (read_cons rfl _).trans hread⟩

end State

/-! ## Viable tokens -/

variable {ts us : List Token}

theorem IsExpr.viable (h : IsExpr ts) : Viable ts := by
  refine ⟨[], ?_⟩
  rwa [List.append_nil]

theorem Viable.of_append (h : Viable (ts ++ us)) : Viable ts := by
  obtain ⟨vs, hvs⟩ := h
  exact ⟨us ++ vs, by rwa [← List.append_assoc]⟩

theorem Viable.take (h : Viable ts) (k : Nat) : Viable (ts.take k) := by
  rw [← List.take_append_drop k ts] at h
  exact h.of_append

theorem Viable.take_of_le {j k : Nat} (h : Viable (ts.take k)) (hjk : j ≤ k) : Viable (ts.take j) := by
  have htake := h.take j
  rwa [List.take_take, Nat.min_eq_left hjk] at htake

theorem StopsAt.not_viable {k : Nat} {token : Token} (h : StopsAt ts k token) : ¬ Viable ts := by
  intro hviable
  exact h.2.2 (hviable.take (k + 1))

/-- There is only one place where tokens stop being viable. -/
theorem StopsAt.unique {j k : Nat} {token token' : Token} (h : StopsAt ts j token)
    (h' : StopsAt ts k token') : token = token' := by
  obtain ⟨htoken, hviable, hnot⟩ := h
  obtain ⟨htoken', hviable', hnot'⟩ := h'
  have hjk : j = k := by
    rcases Nat.lt_trichotomy j k with hlt | heq | hlt
    · exact absurd (hviable'.take_of_le hlt) hnot
    · exact heq
    · exact absurd (hviable.take_of_le hlt) hnot'
  subst hjk
  exact Option.some.inj (htoken.symm.trans htoken')

/-! ## What the reader says of tokens -/

theorem ofTokens_of_read {s : State} (h : State.start.read ts = .ok s) : ofTokens ts = s.finish := by
  rw [ofTokens, show ts.foldlM State.step State.start = _ from h]

theorem ofTokens_of_read_error {e : ParseError} (h : State.start.read ts = .error e) :
    ofTokens ts = .error e := by
  rw [ofTokens, show ts.foldlM State.step State.start = _ from h]

/-- The reader accepts what is viable and nothing else. -/
theorem viable_iff_read : Viable ts ↔ ∃ s, State.start.read ts = .ok s := by
  constructor
  · rintro ⟨us, e, hderives⟩
    obtain ⟨sum, term, -, hread⟩ := hderives.readsAs []
    cases h : State.start.read ts with
    | ok s => exact ⟨s, rfl⟩
    | error fault =>
      have hfail := State.read_append_of_error h us
      cases hfail.symm.trans hread
  · rintro ⟨s, hs⟩
    obtain ⟨us, sum, term, hus⟩ := s.exists_completion
    have haccept : ofTokens (ts ++ us) = .ok (join sum term) :=
      ofTokens_of_read ((State.read_append hs us).trans hus)
    exact ⟨us, _, derives_of_ofTokens haccept⟩

/-- The reader stops where the tokens stop being viable. -/
theorem stopsAt_of_read {before rest : List Token} {token : Token} {s : State} {e : ParseError}
    (hread : State.start.read before = .ok s) (hstep : s.step token = .error e) :
    StopsAt (before ++ token :: rest) before.length token := by
  refine ⟨by simp, ?_, ?_⟩
  · rw [List.take_left]
    exact viable_iff_read.2 ⟨s, hread⟩
  · have htake : (before ++ token :: rest).take (before.length + 1) = before ++ [token] := by
      simp [List.take_append]
    rw [htake, viable_iff_read, State.read_append hread, State.read_singleton, hstep]
    rintro ⟨s', hs'⟩
    cases hs'

/-- Tokens are read as an expression, end too early, or stop being viable at the token that is
    rejected. -/
theorem ofTokens_cases (ts : List Token) :
    (∃ e, ofTokens ts = .ok e ∧ IsExpr ts) ∨
    (ofTokens ts = .error .unexpectedEnd ∧ Viable ts ∧ ¬ IsExpr ts) ∨
    ∃ token k, ofTokens ts = .error (.unexpectedToken token) ∧ StopsAt ts k token := by
  cases hread : State.start.read ts with
  | error e =>
    obtain ⟨before, token, rest, s, rfl, rfl, hbefore, hstep⟩ := State.exists_of_read_error hread
    exact .inr (.inr ⟨token, _, ofTokens_of_read_error hread, stopsAt_of_read hbefore hstep⟩)
  | ok s =>
    have hresult := ofTokens_of_read hread
    rcases s.finish_cases with ⟨e, hfinish⟩ | hfinish
    · rw [hfinish] at hresult
      exact .inl ⟨e, hresult, e, derives_of_ofTokens hresult⟩
    · rw [hfinish] at hresult
      refine .inr (.inl ⟨hresult, viable_iff_read.2 ⟨s, hread⟩, ?_⟩)
      rintro ⟨e, hderives⟩
      cases hderives.ofTokens_eq.symm.trans hresult

/-- **Errors point at the first place where the text stops being an expression.**  Let `ts` be the tokens
    of a text.  The end is unexpected exactly if the tokens can still become an expression and are none.
    A token is unexpected exactly if it stands at a place up to which the tokens can still become an
    expression, and with which they no longer can; the message quotes it.  There is no other error. -/
theorem parse_error_iff {source : String} {ts : List Token}
    (hscan : Token.scan source.toList = .ok ts) :
    (parse source = .error .unexpectedEnd ↔ Viable ts ∧ ¬ IsExpr ts) ∧
    (∀ token, parse source = .error (.unexpectedToken token) ↔ ∃ k, StopsAt ts k token) ∧
    (∀ e, parse source = .error e → e = .unexpectedEnd ∨ ∃ token ∈ ts,
      e = .unexpectedToken token ∧ e.message = "unexpected token " ++ token.display) := by
  have hparse : parse source = ofTokens ts := by
    rw [parse, hscan]
  rw [hparse]
  rcases ofTokens_cases ts with ⟨tree, h, hexpr⟩ | ⟨h, hviable, hnot⟩ | ⟨fault, k, h, hstops⟩
  · rw [h]
    refine ⟨⟨?_, ?_⟩, fun token => ⟨?_, ?_⟩, ?_⟩
    · rintro ⟨⟩
    · intro hend
      exact absurd hexpr hend.2
    · rintro ⟨⟩
    · rintro ⟨k, hstops⟩
      exact absurd hexpr.viable hstops.not_viable
    · rintro e ⟨⟩
  · rw [h]
    refine ⟨iff_of_true rfl ⟨hviable, hnot⟩, fun token => ⟨?_, ?_⟩, ?_⟩
    · rintro ⟨⟩
    · rintro ⟨k, hstops⟩
      exact absurd hviable hstops.not_viable
    · rintro e ⟨⟩
      exact .inl rfl
  · rw [h]
    refine ⟨⟨?_, ?_⟩, fun token => ⟨?_, ?_⟩, ?_⟩
    · rintro ⟨⟩
    · intro hend
      exact absurd hend.1 hstops.not_viable
    · rintro ⟨⟩
      exact ⟨k, hstops⟩
    · rintro ⟨j, hstops'⟩
      rw [hstops.unique hstops']
    · rintro e ⟨⟩
      exact .inr ⟨fault, List.mem_of_getElem? hstops.1, rfl, rfl⟩

/-- In `(A+B C` an operation is missing: up to `B` the tokens can become an expression, up to `C` they
    cannot. -/
theorem parse_error_iff_missing_operator :
    let ts : List Token := [.leftParen, .name "A", .operator .add, .name "B", .name "C"]
    Token.scan "(A+B C".toList = .ok ts ∧
      parse "(A+B C" = .error (.unexpectedToken (.name "C")) ∧
      Viable (ts.take 4) ∧ ¬ Viable (ts.take 5) := by
  intro ts
  have hscan : Token.scan "(A+B C".toList = .ok ts := by cbv
  have hparse : parse "(A+B C" = .error (.unexpectedToken (.name "C")) := by
    rw [parse, hscan]
    rfl
  obtain ⟨k, htoken, hviable, hnot⟩ := ((parse_error_iff hscan).2.1 _).1 hparse
  -- There is only one `C`.
  have hk : k = 4 := by
    have hlt : k < 5 := (List.getElem?_eq_some_iff.1 htoken).1
    have hother : ∀ j < 4, ts[j]? ≠ some (.name "C") := by decide
    by_contra hne
    exact hother k (by omega) htoken
  subst hk
  exact ⟨hscan, hparse, hviable, hnot⟩

end QubitBasic.Expr

/-
  The grammar of expressions, and that the reader accepts exactly what it derives.

  `Derives phrase tokens e` says that the whole list `tokens` is a phrase of the grammar

      expr    := term (('+' | '-') term)*
      term    := unary (('*' | '/') unary)*
      unary   := ('-' | '+') unary | primary
      primary := NUMBER | NAME | '(' expr ')'

  and that `e` is the tree it stands for.  A repetition is a phrase of its own that carries the tree to
  its left (`sums left`, `products left`), so it associates to the left by construction.

  The reader works token by token and keeps what it has not joined yet in a `State`.  Two inductions tie
  it to the grammar:

    * completeness, over derivations — from any state that expects the phrase, reading its tokens leads
      to the state where its tree is complete (`Derives.readsAs`);
    * soundness, over the tokens read — at every moment the tokens behind the reader split into the
      pieces that its state stands for (`Behind`), each of them derived (`Behind.step`).

  Completeness also makes the grammar unambiguous: two derivations of one list end in the same state.
-/
import Mathlib
import QubitBasic.Expr.Parser

namespace QubitBasic

/-- The operations of sums. -/
def Operator.IsAdditive (op : Operator) : Prop := op = .add ∨ op = .sub

/-- The operations of products. -/
def Operator.IsMultiplicative (op : Operator) : Prop := op = .mul ∨ op = .div

namespace Expr

/-! ## The grammar -/

/-- The phrases of the grammar. -/
inductive Phrase where
  | expr
  /-- The repetition `(('+' | '-') term)*`, after the sum `left`. -/
  | sums (left : Expr)
  | term
  /-- The repetition `(('*' | '/') unary)*`, after the product `left`. -/
  | products (left : Expr)
  | unary
  | primary

/-- The list of tokens is a phrase and stands for the tree. -/
inductive Derives : Phrase → List Token → Expr → Prop
  | expr {ts us left e} : Derives .term ts left → Derives (.sums left) us e →
      Derives .expr (ts ++ us) e
  | sumsNil {left} : Derives (.sums left) [] left
  | sumsCons {op left ts right us e} : op.IsAdditive → Derives .term ts right →
      Derives (.sums (.binary op left right)) us e → Derives (.sums left) (.operator op :: ts ++ us) e
  | term {ts us left e} : Derives .unary ts left → Derives (.products left) us e →
      Derives .term (ts ++ us) e
  | productsNil {left} : Derives (.products left) [] left
  | productsCons {op left ts right us e} : op.IsMultiplicative → Derives .unary ts right →
      Derives (.products (.binary op left right)) us e →
      Derives (.products left) (.operator op :: ts ++ us) e
  | minus {ts e} : Derives .unary ts e → Derives .unary (.operator .sub :: ts) (.neg e)
  | plus {ts e} : Derives .unary ts e → Derives .unary (.operator .add :: ts) e
  | primary {ts e} : Derives .primary ts e → Derives .unary ts e
  | number {x} : Derives .primary [.number x] (.literal x)
  | name {text} : Derives .primary [.name text] (.var text)
  | parens {ts e} : Derives .expr ts e → Derives .primary (.leftParen :: ts ++ [.rightParen]) e

/-! ## Completeness: what is derived is read -/

/-- The state after the tokens `ts`. -/
def State.read (s : State) (ts : List Token) : Except ParseError State := ts.foldlM State.step s

theorem State.read_cons {s s' : State} {token : Token} (h : s.step token = .ok s')
    (ts : List Token) : s.read (token :: ts) = s'.read ts := by
  rw [State.read, List.foldlM_cons, h]
  rfl

theorem State.read_append {s s' : State} {ts : List Token} (h : s.read ts = .ok s')
    (us : List Token) : s.read (ts ++ us) = s'.read us := by
  rw [State.read, List.foldlM_append, show ts.foldlM State.step s = _ from h]
  rfl

theorem negate_neg (n : Nat) (e : Expr) : negate n (.neg e) = negate (n + 1) e := by
  induction n with
  | zero => rfl
  | succ n ih =>
    show Expr.neg (negate n (.neg e)) = .neg (negate (n + 1) e)
    rw [ih]

/-- What reading a phrase comes to, from whatever state expects it.  The tree of an `expr` is still in
    two parts when the reader stands behind it, since a product might go on. -/
def ReadsAs : Phrase → List Token → Expr → Prop
  | .expr, ts, e => ∀ outer, ∃ sum term, join sum term = e ∧
      (State.operand outer {}).read ts = .ok (.operator outer sum term)
  | .sums left, ts, e => ∀ outer sum term, join sum term = left → ∃ sum' term', join sum' term' = e ∧
      (State.operator outer sum term).read ts = .ok (.operator outer sum' term')
  | .term, ts, e => ∀ outer sum,
      (State.operand outer { sum }).read ts = .ok (.operator outer sum e)
  | .products left, ts, e => ∀ outer sum,
      (State.operator outer sum left).read ts = .ok (.operator outer sum e)
  | .unary, ts, e | .primary, ts, e => ∀ outer level,
      (State.operand outer level).read ts = .ok (State.complete outer level e)

/-- Reading a phrase leads to the state where its tree is complete. -/
theorem Derives.readsAs {phrase : Phrase} {ts : List Token} {e : Expr} (h : Derives phrase ts e) :
    ReadsAs phrase ts e := by
  -- Each case reads its tokens in the order in which they stand.
  induction h with
  | expr _ _ ihterm ihsums =>
    intro outer
    obtain ⟨sum, term, hjoin, hread⟩ := ihsums outer none _ rfl
    exact ⟨sum, term, hjoin, by rw [State.read_append (ihterm outer none), hread]⟩
  | sumsNil =>
    intro outer sum term hjoin
    exact ⟨sum, term, hjoin, rfl⟩
  | @sumsCons op left ts right us e hop _ _ ihterm ihsums =>
    intro outer sum term hjoin
    -- The operator closes the sum so far, which then waits for the next term.
    have hstep : (State.operator outer sum term).step (.operator op) =
        .ok (.operand outer { sum := some (left, op) }) := by
      rcases hop with rfl | rfl <;> simp only [State.step, hjoin]
    obtain ⟨sum', term', hjoin', hread⟩ := ihsums outer (some (left, op)) right rfl
    refine ⟨sum', term', hjoin', ?_⟩
    rw [List.cons_append, State.read_cons hstep, State.read_append (ihterm outer _), hread]
  | term _ _ ihunary ihproducts =>
    intro outer sum
    rw [State.read_append (ihunary outer { sum })]
    exact ihproducts outer sum
  | productsNil =>
    intro outer sum
    rfl
  | @productsCons op left ts right us e hop _ _ ihunary ihproducts =>
    intro outer sum
    -- The product waits, and what the sum around it waits for is not touched.
    have hstep : (State.operator outer sum left).step (.operator op) =
        .ok (.operand outer { sum, product := some (left, op) }) := by
      rcases hop with rfl | rfl <;> rfl
    rw [List.cons_append, State.read_cons hstep, State.read_append (ihunary outer _)]
    exact ihproducts outer sum
  | @minus ts e _ ih =>
    intro outer level
    -- The sign is counted and takes effect once the operand is complete.
    rw [State.read_cons rfl, ih]
    simp only [State.complete, Level.term, negate_neg]
  | plus _ ih =>
    intro outer level
    rw [State.read_cons rfl, ih]
  | primary _ ih => exact ih
  | number =>
    intro outer level
    rfl
  | name =>
    intro outer level
    rfl
  | parens _ ih =>
    intro outer level
    -- The level waits on the stack while the text in parentheses is read.
    obtain ⟨sum, term, rfl, hread⟩ := ih (level :: outer)
    rw [List.cons_append, State.read_cons rfl, State.read_append hread]
    rfl

/-- What the grammar derives, the reader accepts. -/
theorem Derives.ofTokens_eq {ts : List Token} {e : Expr} (h : Derives .expr ts e) :
    ofTokens ts = .ok e := by
  obtain ⟨sum, term, rfl, hread⟩ := h.readsAs []
  rw [ofTokens, show ts.foldlM State.step State.start = _ from hread]
  rfl

/-! ## Phrases grow at the end

  A reader from left to right meets the end of a repetition last, where the rules take it apart from
  the front. -/

theorem Derives.products_concat {left e right : Expr} {op : Operator} {ts us : List Token}
    (h : Derives (.products left) ts e) (hop : op.IsMultiplicative) (hright : Derives .unary us right) :
    Derives (.products left) (ts ++ .operator op :: us) (.binary op e right) := by
  -- The nonterminal is fixed, so it is generalised for the induction and recovered in each case.
  generalize hp : Phrase.products left = p at h
  induction h generalizing left with
  | productsNil =>
    obtain rfl := Phrase.products.inj hp
    simpa using Derives.productsCons hop hright .productsNil
  | productsCons hop' hunary _ _ ih =>
    obtain rfl := Phrase.products.inj hp
    simpa using Derives.productsCons hop' hunary (ih rfl)
  | _ => cases hp

theorem Derives.term_concat {e right : Expr} {op : Operator} {ts us : List Token}
    (h : Derives .term ts e) (hop : op.IsMultiplicative) (hright : Derives .unary us right) :
    Derives .term (ts ++ .operator op :: us) (.binary op e right) := by
  cases h with
  | term hunary hproducts =>
    rw [List.append_assoc]
    exact .term hunary (hproducts.products_concat hop hright)

theorem Derives.sums_concat {left e right : Expr} {op : Operator} {ts us : List Token}
    (h : Derives (.sums left) ts e) (hop : op.IsAdditive) (hright : Derives .term us right) :
    Derives (.sums left) (ts ++ .operator op :: us) (.binary op e right) := by
  generalize hp : Phrase.sums left = p at h
  induction h generalizing left with
  | sumsNil =>
    obtain rfl := Phrase.sums.inj hp
    simpa using Derives.sumsCons hop hright .sumsNil
  | sumsCons hop' hterm _ _ ih =>
    obtain rfl := Phrase.sums.inj hp
    simpa using Derives.sumsCons hop' hterm (ih rfl)
  | _ => cases hp

theorem Derives.expr_concat {e right : Expr} {op : Operator} {ts us : List Token}
    (h : Derives .expr ts e) (hop : op.IsAdditive) (hright : Derives .term us right) :
    Derives .expr (ts ++ .operator op :: us) (.binary op e right) := by
  cases h with
  | expr hterm hsums =>
    rw [List.append_assoc]
    exact .expr hterm (hsums.sums_concat hop hright)

/-! ## Soundness: what is read is derived -/

/-- The tokens behind a left operand that waits for its right one: none, or a phrase and an operation
    of the given kind. -/
def BehindPending (phrase : Phrase) (kind : Operator → Prop) :
    Option (Expr × Operator) → List Token → Prop
  | none, ts => ts = []
  | some (left, op), ts => kind op ∧ ∃ us, Derives phrase us left ∧ ts = us ++ [.operator op]

/-- Signs in front of an operand, `n` of them minus signs. -/
inductive Signs : Nat → List Token → Prop
  | nil : Signs 0 []
  | minus {n ts} : Signs n ts → Signs (n + 1) (ts ++ [.operator .sub])
  | plus {n ts} : Signs n ts → Signs n (ts ++ [.operator .add])

/-- The tokens behind a level that expects an operand. -/
def BehindLevel (level : Level) (ts : List Token) : Prop :=
  ∃ as bs cs, BehindPending .expr Operator.IsAdditive level.sum as ∧
    BehindPending .term Operator.IsMultiplicative level.product bs ∧
    Signs level.minuses cs ∧ ts = as ++ bs ++ cs

/-- The tokens behind the parentheses that are open, innermost first. -/
def BehindOuter : List Level → List Token → Prop
  | [], ts => ts = []
  | level :: outer, ts => ∃ as bs, BehindOuter outer as ∧ BehindLevel level bs ∧
      ts = as ++ bs ++ [.leftParen]

/-- The tokens behind the reader are what its state stands for. -/
def Behind : State → List Token → Prop
  | .operand outer level, ts => ∃ as bs, BehindOuter outer as ∧ BehindLevel level bs ∧ ts = as ++ bs
  | .operator outer sum term, ts => ∃ as bs cs, BehindOuter outer as ∧
      BehindPending .expr Operator.IsAdditive sum bs ∧ Derives .term cs term ∧ ts = as ++ bs ++ cs

theorem behind_start : Behind State.start [] :=
  ⟨[], [], rfl, ⟨[], [], [], rfl, rfl, .nil, rfl⟩, rfl⟩

theorem Signs.unary {n : Nat} {ts us : List Token} {e : Expr} (h : Signs n ts)
    (hunary : Derives .unary us e) : Derives .unary (ts ++ us) (negate n e) := by
  induction h generalizing us e with
  | nil => exact hunary
  | minus _ ih =>
    rw [List.append_assoc, ← negate_neg]
    exact ih (.minus hunary)
  | plus _ ih =>
    rw [List.append_assoc]
    exact ih (.plus hunary)

theorem BehindPending.term {product : Option (Expr × Operator)} {ts us : List Token} {e : Expr}
    (h : BehindPending .term Operator.IsMultiplicative product ts) (hunary : Derives .unary us e) :
    Derives .term (ts ++ us) (join product e) := by
  cases product with
  | none =>
    obtain rfl : ts = [] := h
    simpa [join] using Derives.term hunary .productsNil
  | some pending =>
    obtain ⟨hop, vs, hleft, rfl⟩ := h
    simpa [join] using hleft.term_concat hop hunary

theorem BehindPending.expr {sum : Option (Expr × Operator)} {ts us : List Token} {e : Expr}
    (h : BehindPending .expr Operator.IsAdditive sum ts) (hterm : Derives .term us e) :
    Derives .expr (ts ++ us) (join sum e) := by
  cases sum with
  | none =>
    obtain rfl : ts = [] := h
    simpa [join] using Derives.expr hterm .sumsNil
  | some pending =>
    obtain ⟨hop, vs, hleft, rfl⟩ := h
    simpa [join] using hleft.expr_concat hop hterm

/-- A complete operand joins what waits for it on its level. -/
theorem behind_complete {outer : List Level} {level : Level} {as bs us : List Token} {e : Expr}
    (houter : BehindOuter outer as) (hlevel : BehindLevel level bs) (he : Derives .primary us e) :
    Behind (State.complete outer level e) (as ++ bs ++ us) := by
  obtain ⟨xs, ys, zs, hsum, hproduct, hsigns, rfl⟩ := hlevel
  refine ⟨as, xs, ys ++ (zs ++ us), houter, hsum, ?_, by simp only [List.append_assoc]⟩
  exact hproduct.term (hsigns.unary (.primary he))

/-- An operation of a sum ends the sum so far, which then waits for the next term. -/
theorem behind_sum {outer : List Level} {sum : Option (Expr × Operator)} {term : Expr} {op : Operator}
    {ts : List Token} (h : Behind (.operator outer sum term) ts) (hop : op.IsAdditive) :
    Behind (.operand outer { sum := some (join sum term, op) }) (ts ++ [.operator op]) := by
  obtain ⟨as, bs, cs, houter, hsum, hterm, rfl⟩ := h
  refine ⟨as, bs ++ cs ++ [.operator op], houter, ?_, by simp only [List.append_assoc]⟩
  exact ⟨_, [], [], ⟨hop, _, hsum.expr hterm, rfl⟩, rfl, .nil, by simp⟩

/-- An operation of a product ends the product so far, which then waits for the next factor. -/
theorem behind_product {outer : List Level} {sum : Option (Expr × Operator)} {term : Expr}
    {op : Operator} {ts : List Token} (h : Behind (.operator outer sum term) ts)
    (hop : op.IsMultiplicative) :
    Behind (.operand outer { sum, product := some (term, op) }) (ts ++ [.operator op]) := by
  obtain ⟨as, bs, cs, houter, hsum, hterm, rfl⟩ := h
  refine ⟨as, bs ++ cs ++ [.operator op], houter, ?_, by simp only [List.append_assoc]⟩
  exact ⟨bs, _, [], hsum, ⟨hop, _, hterm, rfl⟩, .nil, by simp⟩

/-- One token further, the tokens behind the reader are again what its state stands for. -/
theorem Behind.step {s s' : State} {ts : List Token} {token : Token} (h : Behind s ts)
    (hstep : s.step token = .ok s') : Behind s' (ts ++ [token]) := by
  cases s with
  | operand outer level =>
    obtain ⟨as, bs, houter, hlevel, rfl⟩ := h
    cases token with
    | number x =>
      obtain rfl := Except.ok.inj hstep
      exact behind_complete houter hlevel .number
    | name text =>
      obtain rfl := Except.ok.inj hstep
      exact behind_complete houter hlevel .name
    | leftParen =>
      obtain rfl := Except.ok.inj hstep
      exact ⟨_, [], ⟨as, bs, houter, hlevel, rfl⟩, ⟨[], [], [], rfl, rfl, .nil, rfl⟩, by simp⟩
    | rightParen => cases hstep
    | operator op =>
      -- Here an operation is a sign, and only two of them are.
      obtain ⟨xs, ys, zs, hsum, hproduct, hsigns, rfl⟩ := hlevel
      cases op with
      | sub =>
        obtain rfl := Except.ok.inj hstep
        exact ⟨as, _, houter, ⟨xs, ys, _, hsum, hproduct, .minus hsigns, rfl⟩, by simp⟩
      | add =>
        obtain rfl := Except.ok.inj hstep
        exact ⟨as, _, houter, ⟨xs, ys, _, hsum, hproduct, .plus hsigns, rfl⟩, by simp⟩
      | mul => cases hstep
      | div => cases hstep
  | operator outer sum term =>
    cases token with
    | operator op =>
      cases op with
      | add =>
        obtain rfl := Except.ok.inj hstep
        exact behind_sum h (Or.inl rfl)
      | sub =>
        obtain rfl := Except.ok.inj hstep
        exact behind_sum h (Or.inr rfl)
      | mul =>
        obtain rfl := Except.ok.inj hstep
        exact behind_product h (Or.inl rfl)
      | div =>
        obtain rfl := Except.ok.inj hstep
        exact behind_product h (Or.inr rfl)
    | rightParen =>
      cases outer with
      | nil => cases hstep
      | cons level outer =>
        obtain rfl := Except.ok.inj hstep
        obtain ⟨_, bs, cs, ⟨xs, ys, houter, hlevel, rfl⟩, hsum, hterm, rfl⟩ := h
        have hparens := behind_complete houter hlevel (.parens (hsum.expr hterm))
        simpa using hparens
    | number x => cases hstep
    | name text => cases hstep
    | leftParen => cases hstep

theorem Behind.read {s s' : State} {ts us : List Token} (h : Behind s ts)
    (hread : s.read us = .ok s') : Behind s' (ts ++ us) := by
  induction us generalizing s ts with
  | nil =>
    obtain rfl := Except.ok.inj hread
    rwa [List.append_nil]
  | cons token us ih =>
    cases hstep : s.step token with
    | error e =>
      rw [State.read, List.foldlM_cons, hstep] at hread
      cases hread
    | ok next =>
      rw [State.read_cons hstep] at hread
      have hbehind := ih (h.step hstep) hread
      rwa [List.append_assoc] at hbehind

/-- What the reader accepts, the grammar derives. -/
theorem derives_of_ofTokens {ts : List Token} {e : Expr} (h : ofTokens ts = .ok e) :
    Derives .expr ts e := by
  rw [ofTokens] at h
  split at h
  · cases h
  · rename_i s hread
    have hbehind : Behind s ts := behind_start.read hread
    cases s with
    | operand outer level => cases h
    | operator outer sum term =>
      cases outer with
      | cons level outer => cases h
      | nil =>
        obtain rfl := Except.ok.inj h
        obtain ⟨_, bs, cs, rfl, hsum, hterm, rfl⟩ := hbehind
        exact hsum.expr hterm

/-- **Parsing is the grammar.**  A text is read as `e` exactly if its tokens, all of them, derive `e`
    from `expr`; and no list of tokens derives two trees. -/
theorem parse_eq_ok_iff_derives (source : String) (e : Expr) :
    (parse source = .ok e ↔ ∃ ts, Token.scan source.toList = .ok ts ∧ Derives .expr ts e) ∧
    (∀ ts e₁ e₂, Derives .expr ts e₁ → Derives .expr ts e₂ → e₁ = e₂) := by
  refine ⟨⟨fun h => ?_, ?_⟩, fun ts e₁ e₂ h₁ h₂ => ?_⟩
  · rw [parse] at h
    split at h
    · cases h
    · rename_i ts hscan
      exact ⟨ts, hscan, derives_of_ofTokens h⟩
  · rintro ⟨ts, hscan, hderives⟩
    rw [parse, hscan]
    exact hderives.ofTokens_eq
  · exact Except.ok.inj (h₁.ofTokens_eq.symm.trans h₂.ofTokens_eq)

/-- In `A-B--C` the first two minus signs subtract, from the left, and the third one negates; the
    tokens stand for that tree and for no other. -/
theorem derives_subtract_negated :
    let e : Expr := .binary .sub (.binary .sub (.var "A") (.var "B")) (.neg (.var "C"))
    ∃ ts, Token.scan "A-B--C".toList = .ok ts ∧ Derives .expr ts e ∧
      ∀ e', Derives .expr ts e' → e' = e := by
  intro e
  have htokens : Token.scan "A-B--C".toList = .ok [.name "A", .operator .sub, .name "B",
      .operator .sub, .operator .sub, .name "C"] := by cbv
  have hparse : parse "A-B--C" = .ok e := by
    rw [parse, htokens]
    rfl
  obtain ⟨ts, hscan, hderives⟩ := (parse_eq_ok_iff_derives "A-B--C" e).1.1 hparse
  exact ⟨ts, hscan, hderives, fun e' h => (parse_eq_ok_iff_derives "A-B--C" e).2 ts e' e h hderives⟩

end Expr

end QubitBasic

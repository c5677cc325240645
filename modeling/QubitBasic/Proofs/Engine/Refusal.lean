/-
  Calls that an engine refuses.

  Which calls are refused is decided by their integers alone (`Refuses`): the size of a new register has
  to be between one and the ceiling, and every qubit that is named has to be one of the register's.
  Nothing else can make a call fail (`make_error_iff`).

  A refused call changes nothing, not even the position in the stream of samples (`Call.atomic_make`).
  Measuring is the delicate case, since it draws a sample before it asks for the register: that the
  register is there follows from the check of the qubit.  A history therefore goes on after a refused
  call as if the call had not been made (`history_of_refused`).
-/
import QubitBasic.Proofs.Engine.History

namespace QubitBasic.Engine

/-! ## Refused calls change nothing -/

theorem Call.atomic_make (c : Call) : Atomic c.make := by
  intro e error e' h
  rcases c.make_cases e with ⟨error', hmake⟩ | ⟨count, -, -, -, hmake⟩ | ⟨op, r, -, -, -, hmake⟩
  · rw [hmake] at h
    cases h
    rfl
  · rw [hmake] at h
    cases h
  · rw [hmake] at h
    cases h

/-- An operation of the engine fails as the call that it is part of. -/
theorem atomic_of_make {α : Type} {operation : Step α} {c : Call} {f : α → Step (Option Bool)}
    (hmake : c.make = operation >>= f) : Atomic operation := by
  intro e error e' h
  have hfail : c.make e = .error error e' := by
    rw [hmake]
    exact bind_of_error h
  exact c.atomic_make hfail

theorem atomic_prepare (count : Int) : Atomic (prepare count) :=
  atomic_of_make (c := .prepare count) rfl

theorem atomic_hadamard (qubit : Int) : Atomic (hadamard qubit) :=
  atomic_of_make (c := .hadamard qubit) rfl

theorem atomic_flip (qubit : Int) : Atomic (flip qubit) :=
  atomic_of_make (c := .flip qubit) rfl

theorem atomic_controlledNot (control target : Int) : Atomic (controlledNot control target) :=
  atomic_of_make (c := .controlledNot control target) rfl

theorem atomic_measure (qubit : Int) : Atomic (measure qubit) :=
  atomic_of_make (c := .measure qubit) rfl

/-! ## Which calls are refused -/

/-- The integers of the call are not acceptable: the size of a new register is below one or above the
    ceiling, or a qubit is named that the register does not have. -/
def Refuses (e : Engine) : Call → Prop
  | .prepare count => count < 1 ∨ e.ceiling < count
  | c => ∃ q ∈ c.named, q < 0 ∨ e.qubits ≤ q

theorem refuses_prepare_iff (e : Engine) (count : Int) :
    e.Refuses (.prepare count) ↔ ¬ (1 ≤ count ∧ count ≤ e.ceiling) := by
  show count < 1 ∨ e.ceiling < count ↔ _
  omega

theorem not_inRange_iff (e : Engine) (q : Int) : ¬ e.InRange q ↔ q < 0 ∨ e.qubits ≤ q := by
  unfold InRange
  omega

/-- A call that asks for an operation is refused for the sake of a qubit. -/
theorem refuses_iff_of_operation? (e : Engine) {c : Call} {op : Operation}
    (hop : c.operation? = some op) : e.Refuses c ↔ ∃ q ∈ c.named, ¬ e.InRange q := by
  simp only [not_inRange_iff]
  cases c with
  | prepare count => cases hop
  | _ => exact Iff.rfl

/-- A call fails exactly if its integers are not acceptable. -/
theorem make_error_iff (e : Engine) (c : Call) :
    (∃ error e', c.make e = .error error e') ↔ e.Refuses c := by
  cases hop : c.operation? with
  | none =>
    cases c with
    | prepare count =>
      rw [refuses_prepare_iff]
      constructor
      · rintro ⟨error, e', hfail⟩ hle
        rw [Call.make_prepare_of_le hle] at hfail
        cases hfail
      · intro hnot
        exact ⟨_, _, Call.make_prepare_of_not_le hnot⟩
    | _ => cases hop
  | some op =>
    rw [refuses_iff_of_operation? e hop]
    constructor
    · rintro ⟨error, e', hfail⟩
      by_cases hall : ∀ q ∈ c.named, e.InRange q
      · obtain ⟨r, hr⟩ := Call.exists_register_of_inRange hop hall
        rw [Call.make_of_inRange hop hr hall] at hfail
        cases hfail
      · obtain ⟨q, hq⟩ := Classical.not_forall.1 hall
        exact ⟨q, Classical.not_imp.1 hq⟩
    · rintro ⟨q, hq, hout⟩
      obtain ⟨error, hfail⟩ := Call.make_of_not_inRange hq hout
      exact ⟨error, e, hfail⟩

instance (e : Engine) (q : Int) : Decidable (e.InRange q) :=
  inferInstanceAs (Decidable (0 ≤ q ∧ q < e.qubits))

/-- The error with which a call is refused: it names the first qubit that the register does not
    have. -/
def refusal? (e : Engine) : Call → Option QuantumError
  | .prepare count =>
    if 1 ≤ count ∧ count ≤ e.ceiling then none else some (.qubitCount count e.ceiling)
  | c => (c.named.find? (¬ e.InRange ·)).map (.qubitIndex · e.qubits)

theorem make_of_refusal? {e : Engine} {c : Call} {error : QuantumError}
    (h : e.refusal? c = some error) : c.make e = .error error e := by
  cases c with
  | prepare count =>
    obtain ⟨hnot, rfl⟩ : ¬ (1 ≤ count ∧ count ≤ e.ceiling) ∧ .qubitCount count e.ceiling = error := by
      simpa [refusal?] using h
    exact Call.make_prepare_of_not_le hnot
  | hadamard qubit | flip qubit | measure qubit =>
    obtain ⟨q, hfind, rfl⟩ := Option.map_eq_some_iff.1 h
    obtain ⟨hout, rfl⟩ : ¬ e.InRange qubit ∧ qubit = q := by simpa [Call.named] using hfind
    exact bind_of_error (bind_of_error (checkQubit_of_not_inRange hout))
  | controlledNot control target =>
    obtain ⟨q, hfind, rfl⟩ := Option.map_eq_some_iff.1 h
    by_cases hcontrol : e.InRange control
    · obtain ⟨hout, rfl⟩ : ¬ e.InRange target ∧ target = q := by
        simpa [Call.named, hcontrol] using hfind
      refine bind_of_error ?_
      rw [Engine.controlledNot, bind_of_ok (checkQubit_of_inRange hcontrol)]
      exact bind_of_error (checkQubit_of_not_inRange hout)
    · obtain rfl : control = q := by simpa [Call.named, hcontrol] using hfind
      exact bind_of_error (bind_of_error (checkQubit_of_not_inRange hcontrol))

/-- There is no other reason to refuse a call. -/
theorem refusal?_of_make {e e' : Engine} {c : Call} {error : QuantumError}
    (h : c.make e = .error error e') : e.refusal? c = some error := by
  cases hrefusal : e.refusal? c with
  | some error' =>
    rw [make_of_refusal? hrefusal] at h
    cases h
    rfl
  | none =>
    exfalso
    have hrefuses := (make_error_iff e c).1 ⟨error, e', h⟩
    cases hop : c.operation? with
    | none =>
      cases c with
      | prepare count =>
        rw [refuses_prepare_iff] at hrefuses
        simp [refusal?, hrefuses] at hrefusal
      | _ => cases hop
    | some op =>
      obtain ⟨q, hq, hout⟩ := (refuses_iff_of_operation? e hop).1 hrefuses
      have hfind : c.named.find? (¬ e.InRange ·) = none := by
        cases c with
        | prepare count => cases hop
        | _ => exact Option.map_eq_none_iff.1 hrefusal
      simpa [hout] using List.find?_eq_none.1 hfind q hq

/-! ## Histories with refused calls -/

/-- What has been answered before does not matter to the calls that follow. -/
theorem foldl_extend_eq (calls : List Call) (h : History) :
    calls.foldl History.extend h =
      ⟨(h.engine.history calls).engine, h.answers ++ (h.engine.history calls).answers⟩ := by
  induction calls generalizing h with
  | nil =>
    show h = ⟨h.engine, h.answers ++ []⟩
    rw [List.append_nil]
  | cons c calls ih =>
    -- The first call is made on the same engine on both sides and answered alike.
    have hfirst : h.extend c = ⟨(History.extend { engine := h.engine } c).engine,
        h.answers ++ (History.extend { engine := h.engine } c).answers⟩ := by
      unfold History.extend
      cases c.make h.engine <;> rfl
    rw [history, List.foldl_cons, List.foldl_cons, ih, ih (History.extend { engine := h.engine } c),
      hfirst, List.append_assoc]

theorem history_append (e : Engine) (past future : List Call) :
    e.history (past ++ future) =
      ⟨((e.history past).engine.history future).engine,
        (e.history past).answers ++ ((e.history past).engine.history future).answers⟩ := by
  rw [history, List.foldl_append]
  exact foldl_extend_eq future (e.history past)

/-- After a refused call the history goes on as if the call had not been made. -/
theorem history_of_refused {e e' : Engine} {past : List Call} {c : Call} {error : QuantumError}
    (hfail : c.make (e.history past).engine = .error error e') (future : List Call) :
    e.history (past ++ c :: future) =
      ⟨(e.history (past ++ future)).engine, (e.history past).answers ++
        .error error :: ((e.history past).engine.history future).answers⟩ := by
  have hsame := c.atomic_make hfail
  have hextend : (e.history past).extend c =
      ⟨(e.history past).engine, (e.history past).answers ++ [.error error]⟩ := by
    rw [History.extend, hfail, hsame]
  rw [history, List.foldl_append, List.foldl_cons]
  show future.foldl History.extend ((e.history past).extend c) = _
  rw [hextend, foldl_extend_eq, history_append e past future, List.append_assoc]
  rfl

end QubitBasic.Engine

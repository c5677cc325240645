/-
  Only identifiers are ever bound.

  A statement binds the variable that its text names, which has been checked when the statement was
  decoded, or the one for measured values (`Statement.isIdentifier_of_mem_binds`).  By the frame rule no
  statement adds a name of another kind, so on all machines that a run reaches the names that are bound
  are identifiers (`Run.Reaches.named`), and a text such as a numeral is never taken for a variable.
-/
import QubitBasic.Proofs.Run.Budget
import QubitBasic.Proofs.Statement.Display

namespace QubitBasic

open Text

theorem Statement.isIdentifier_of_assignment {text operands : List Char} {name expr : String}
    (h : assignment text operands = .ok (.assign name expr)) : isIdentifier name.toList = true := by
  unfold assignment at h
  split at h
  · cases h
  rename_i left right _
  simp only at h
  split at h
  · cases h
  rename_i hname
  split at h
  · cases h
  obtain ⟨rfl, -⟩ := Action.assign.inj (Except.ok.inj h)
  simpa using hname

theorem Statement.Canonical.isIdentifier_of_mem_binds {action : Action} (h : Canonical action)
    {name : String} (hname : name ∈ action.binds) : isIdentifier name.toList = true := by
  cases action with
  | assign other expr =>
    obtain rfl := List.mem_singleton.1 hname
    exact isIdentifier_of_assignment (h.decodes [])
  | measure qubit =>
    obtain rfl := List.mem_singleton.1 hname
    decide
  | _ => cases hname

/-- A statement binds identifiers only. -/
theorem Statement.isIdentifier_of_mem_binds {text : String} {s : Statement} (h : parse text = .ok s)
    {name : String} (hname : name ∈ s.binds) : isIdentifier name.toList = true := by
  rcases parseChars_cases h with ⟨action, rfl, hcanonical⟩ | ⟨_, _, _, action, rfl, hcanonical, -⟩
  · exact hcanonical.isIdentifier_of_mem_binds hname
  · exact hcanonical.isIdentifier_of_mem_binds hname

namespace Machine

/-- All variables of the machine are identifiers. -/
def Named (m : Machine) : Prop :=
  ∀ name, (m.vars.get? name).isSome → isIdentifier name.toList = true

theorem frame_named :
    Frame (fun name => isIdentifier name.toList = true) fun m m' => m.Named → m'.Named where
  refl _ h := h
  trans _ _ _ h h' hm := h' (h hm)
  print _ _ h := h
  assign m name value hname hm := by
    intro other hother
    by_cases heq : other = name
    · exact heq ▸ hname
    · refine hm other ?_
      rwa [Variables.get?_bind, if_neg heq] at hother
  engine _ _ _ _ h := h

theorem keeps_named (policy : TargetPolicy) (listing : Listing) (line : Line) :
    Keeps (fun m m' => m.Named → m'.Named) (step policy listing line) :=
  frame_named.keeps_step policy listing fun _ hparse _ hname =>
    Statement.isIdentifier_of_mem_binds hparse hname

end Machine

namespace Run

variable {policy : TargetPolicy} {listing : Listing}

theorem Continues.named {m m' : Machine} (h : Continues policy listing m m') (hm : m.Named) :
    m'.Named :=
  h.of_keeps (Machine.keeps_named policy listing) (fun _ _ _ h => h) hm

/-- What a run reaches has identifiers for variables if what it starts from has. -/
theorem Reaches.named {m m' : Machine} {k : Nat} (h : Reaches policy listing m k m') (hm : m.Named) :
    m'.Named := by
  induction h with
  | refl => exact hm
  | onward hnext _ ih => exact ih (hnext.named hm)

end Run

end QubitBasic

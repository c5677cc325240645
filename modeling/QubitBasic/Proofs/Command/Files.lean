/-
  What `run` makes of its files.

  The host answers one request after the other, each from the state that the one before has left.  `Loads`
  says which configuration the arguments lead to, or with which message there is none: the file that they
  name may be missing, or hold no configuration.  Then the program is read.  Either both files can be used
  and a run is started with what is in them (`Starts`), or one of them cannot (`Unusable`), and nothing
  else happens (`unusable_or_starts`).  In the first case the report is that of the run
  (`Starts.runFile_eq`), in the second one it is the message (`Unusable.runFile_eq`).
-/
import QubitBasic.Command.Session

namespace QubitBasic.Command

variable {σ : Type} {host : Host (StateM σ)} {arguments : RunArguments} {s s' : σ}

/-- The arguments lead from the state `s` of the host to a configuration, or to the message that there is
    none, and to the state `s'`.  A seed among the arguments counts for the one in the file. -/
inductive Loads (host : Host (StateM σ)) (arguments : RunArguments) (s : σ) :
    Except String Config → σ → Prop
  | standard : arguments.config = none → Loads host arguments s (.ok { seed := arguments.seed }) s
  | file {path text : String} {config : Config} {s' : σ} : arguments.config = some path →
      (host.fileText path).run s = (.ok text, s') → Config.parse text = .ok config →
      Loads host arguments s (.ok { config with seed := arguments.seed <|> config.seed }) s'
  | unreadable {path reason : String} {s' : σ} : arguments.config = some path →
      (host.fileText path).run s = (.error reason, s') →
      Loads host arguments s (.error s!"Cannot read config '{path}': {reason}") s'
  | invalid {path text : String} {error : Config.Error} {s' : σ} : arguments.config = some path →
      (host.fileText path).run s = (.ok text, s') → Config.parse text = .error error →
      Loads host arguments s (.error (RunError.config error).message) s'

/-- A run to be started: its configuration and program, the seed that it takes if it has none, and its
    clock with the state that this is in. -/
structure Start (σ : Type) where
  config : Config
  source : String
  entropy : UInt64
  elapsed : StateM σ Nat
  clock : σ

/-- The result of the run. -/
def Start.result (start : Start σ) : Except Run.Failure Run.Outcome :=
  ((runTimed start.elapsed start.config (start.config.engine (start.config.samples start.entropy))
    start.source).run start.clock).1

/-- The run of the configuration that is loaded and of the program that is read. -/
inductive Starts (host : Host (StateM σ)) (arguments : RunArguments) (s : σ) : Start σ → Prop
  | intro {config : Config} {source : String} {entropy : UInt64} {elapsed : StateM σ Nat}
      {s₁ s₂ s₃ clock : σ} : Loads host arguments s (.ok config) s₁ →
      (host.fileText arguments.path).run s₁ = (.ok source, s₂) →
      host.entropy.run s₂ = (entropy, s₃) → host.stopwatch.run s₃ = (elapsed, clock) →
      Starts host arguments s ⟨config, source, entropy, elapsed, clock⟩

/-- The message that a file cannot be used. -/
inductive Unusable (host : Host (StateM σ)) (arguments : RunArguments) (s : σ) : String → Prop
  | config {message : String} {s₁ : σ} : Loads host arguments s (.error message) s₁ →
      Unusable host arguments s message
  | program {config : Config} {reason : String} {s₁ s₂ : σ} :
      Loads host arguments s (.ok config) s₁ →
      (host.fileText arguments.path).run s₁ = (.error reason, s₂) →
      Unusable host arguments s s!"Cannot read '{arguments.path}': {reason}"

/-! ## One request after the other -/

theorem run_bind_of {α β : Type} {x : StateM σ α} {f : α → StateM σ β} {a : α}
    (h : x.run s = (a, s')) : (x >>= f).run s = (f a).run s' := by
  rw [StateT.run_bind, h]
  rfl

theorem Loads.loadConfig_eq {loaded : Except String Config} (h : Loads host arguments s loaded s') :
    (loadConfig host arguments).run s = (loaded, s') := by
  cases h with
  | standard hnone =>
    rw [loadConfig, hnone]
    cases arguments.seed <;> rfl
  | file hconfig hfile hparse =>
    simp only [loadConfig, hconfig]
    rw [run_bind_of hfile]
    simp only [hparse]
    cases arguments.seed <;> rfl
  | unreadable hconfig hfile =>
    simp only [loadConfig, hconfig]
    rw [run_bind_of hfile]
    rfl
  | invalid hconfig hfile hparse =>
    simp only [loadConfig, hconfig]
    rw [run_bind_of hfile]
    simp only [hparse]
    rfl

/-- Loading always comes to an end. -/
theorem exists_loads (host : Host (StateM σ)) (arguments : RunArguments) (s : σ) :
    ∃ loaded s', Loads host arguments s loaded s' := by
  cases hconfig : arguments.config with
  | none => exact ⟨_, s, .standard hconfig⟩
  | some path =>
    rcases hfile : (host.fileText path).run s with ⟨reason | text, s'⟩
    · exact ⟨_, s', .unreadable hconfig hfile⟩
    · cases hparse : Config.parse text with
      | error error => exact ⟨_, s', .invalid hconfig hfile hparse⟩
      | ok config => exact ⟨_, s', .file hconfig hfile hparse⟩

/-! ## Reports -/

theorem carryOut_run_of_ok {words : List String} (h : RunArguments.parse words = .ok arguments)
    (host : Host (StateM σ)) : carryOut host (.run words) = runFile host arguments := by
  rw [carryOut, h]

theorem carryOut_run_of_error {words : List String} {error : RunArguments.Error}
    (h : RunArguments.parse words = .error error) (host : Host (StateM σ)) (s : σ) :
    ((carryOut host (.run words)).run s).1 = .failure error.message := by
  rw [carryOut, h]
  rfl

/-- Where a file cannot be used, `run` says so. -/
theorem Unusable.runFile_eq {message : String} (h : Unusable host arguments s message) :
    ((runFile host arguments).run s).1 = .failure message := by
  cases h with
  | config hloads =>
    rw [runFile, run_bind_of hloads.loadConfig_eq]
    rfl
  | program hloads hfile =>
    rw [runFile, run_bind_of hloads.loadConfig_eq]
    simp only
    rw [run_bind_of hfile]
    rfl

/-- Where a run is started, `run` reports its result. -/
theorem Starts.runFile_eq {start : Start σ} (h : Starts host arguments s start) :
    ((runFile host arguments).run s).1 =
      if arguments.json then .ofResultJson start.result
      else .ofResult arguments.path start.result := by
  obtain ⟨hloads, hfile, hentropy, hwatch⟩ := h
  rw [runFile, run_bind_of hloads.loadConfig_eq]
  simp only
  rw [run_bind_of hfile]
  simp only [runProgram, bind_assoc]
  rw [run_bind_of hentropy, run_bind_of hwatch]
  rfl

theorem unusable_or_starts (host : Host (StateM σ)) (arguments : RunArguments) (s : σ) :
    (∃ message, Unusable host arguments s message) ∨ ∃ start, Starts host arguments s start := by
  obtain ⟨loaded, s₁, hloads⟩ := exists_loads host arguments s
  cases loaded with
  | error message => exact .inl ⟨message, .config hloads⟩
  | ok config =>
    rcases hfile : (host.fileText arguments.path).run s₁ with ⟨reason | source, s₂⟩
    · exact .inl ⟨_, .program hloads hfile⟩
    · rcases hentropy : host.entropy.run s₂ with ⟨entropy, s₃⟩
      rcases hwatch : host.stopwatch.run s₃ with ⟨elapsed, clock⟩
      exact .inr ⟨_, .intro hloads hfile hentropy hwatch⟩

end QubitBasic.Command

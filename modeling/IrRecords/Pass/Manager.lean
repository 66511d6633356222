import IrRecords.Pass.Basic

/-!
# Running passes

A manager visits the definitions of a module in source order, each with all of its passes in the
order in which they were added. A filter restricts it to the definitions of one name. The first
visit that fails ends the run; passes keep the states that they had come to, and the manager can be
run again. Declarations have no body and are never visited.
-/

namespace IrRecords

/-- Passes, and the name that definitions must have to be visited. -/
structure Manager (σ : Type) where
  filter? : Option String
  passes : List (Pass σ)

/-- What comes of a run. -/
structure Run (σ : Type) where
  events : List Event
  /-- The manager behind the run; only the states of its passes differ. -/
  manager : Manager σ
  /-- Whether a function was modified. -/
  result : Except PassFault Bool

namespace Manager

variable {σ : Type}

/-- A manager without passes and without a filter. -/
def empty : Manager σ := ⟨none, []⟩

/-- The manager with another filter. -/
def withFilter (m : Manager σ) (filter? : Option String) : Manager σ :=
  { m with filter? := filter? }

/-- The manager with one more pass. -/
def add (m : Manager σ) (p : Pass σ) : Manager σ := { m with passes := m.passes ++ [p] }

/-- Whether a definition is visited. -/
def selects (m : Manager σ) (f : Function) : Bool :=
  match m.filter? with
  | none => true
  | some name => f.name == name

/-- The definitions that are visited, in source order. -/
def selected (m : Manager σ) (mod : Module) : List Function := mod.definitions.filter m.selects

/-- What is told in front of a visit. -/
def running (p : Pass σ) (f : Function) : Event :=
  .told ⟨.debug, .passes, s!"running {p.name} on @{f.name}"⟩

/-- Visits the function `f` of `mod` with each of the passes. Answers the events, the passes behind
the visits, and whether one of them modified `f`. -/
def visitAll (mod : Module) (f : Function) :
    List (Pass σ) → List Event × List (Pass σ) × Except PassFault Bool
  | [] => ([], [], .ok false)
  | p :: rest =>
    let v := p.visit mod f p.state
    let events := running p f :: v.events
    let p := { p with state := v.state }
    match v.result with
    -- The state of the failed pass is kept, and the others are not asked.
    | .error fault => (events, p :: rest, .error fault)
    | .ok modified =>
      let (later, rest, result) := visitAll mod f rest
      (events ++ later, p :: rest, result.map (modified || ·))

/-- Visits the functions `fs` of `mod` one after the other. -/
def visitEach (mod : Module) (passes : List (Pass σ)) :
    List Function → List Event × List (Pass σ) × Except PassFault Bool
  | [] => ([], passes, .ok false)
  | f :: rest =>
    let (events, passes, result) := visitAll mod f passes
    match result with
    | .error fault => (events, passes, .error fault)
    | .ok modified =>
      let (later, passes, result) := visitEach mod passes rest
      (events ++ later, passes, result.map (modified || ·))

/-- What is told when no definition has the name that the filter asks for. -/
def nothingSelected (mod : Module) (name : String) : Event :=
  let declared := ((mod.function? name).map Function.isDeclaration).getD false
  let message :=
    if declared then s!"@{name} is only declared, nothing to run on"
    else s!"no function definition named @{name}"
  .told ⟨.warn, .passes, message⟩

/-- What is told at the end of a run that did not fail. -/
def finished (visited : Nat) (modified : Bool) : Event :=
  .told ⟨.debug, .passes, s!"visited {visited} function(s), modified: {modified}"⟩

/-- What is told behind the last visit of a run that did not fail. -/
def closing (m : Manager σ) (mod : Module) (modified : Bool) : List Event :=
  let visited := (m.selected mod).length
  let warning :=
    match m.filter? with
    | some name => if visited = 0 then [nothingSelected mod name] else []
    | none => []
  warning ++ [finished visited modified]

/-- Runs the passes on a module. -/
def run (m : Manager σ) (mod : Module) : Run σ :=
  let (events, passes, result) := visitEach mod m.passes (m.selected mod)
  let manager := { m with passes := passes }
  match result with
  | .error fault => ⟨events, manager, .error fault⟩
  | .ok modified => ⟨events ++ m.closing mod modified, manager, .ok modified⟩

end Manager

end IrRecords

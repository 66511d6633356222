import IrRecords.Pass.Manager
import Mathlib.Data.List.ProdSigma

/-!
# What a run calls

A run is planned before it starts: the definitions that are selected, in source order, each with
every pass in the order of the passes. What it does is a row of calls along this plan (`Follows`).
Each call finds its pass in the state that the call before it, in this run or an earlier one, has
left; the first call that fails is the last that is made. `Manager.Ran` says what this comes to for
a run as a whole, and `exists_ran` that every run is of this kind.
-/

namespace IrRecords

variable {σ : Type}

/-! ## Calls -/

/-- One call: the function, the place of the pass in the row of passes, the pass as it was called,
and what came of it. -/
structure Call (σ : Type) where
  function : Function
  place : Nat
  pass : Pass σ
  visit : Visit σ

namespace Call

/-- What is called, as the plan of a run has it. -/
def target (c : Call σ) : Function × Nat := (c.function, c.place)

/-- What can be observed of the call: that it is made, and what it does. -/
def events (c : Call σ) : List Event := Manager.running c.pass c.function :: c.visit.events

/-- The passes behind the call, if they were `ps` before. -/
def passesAfter (c : Call σ) (ps : List (Pass σ)) : List (Pass σ) :=
  ps.set c.place { c.pass with state := c.visit.state }

/-- The call is the visit of the pass at its place, in the state in which it is there. -/
def IsMade (mod : Module) (ps : List (Pass σ)) (c : Call σ) : Prop :=
  ps[c.place]? = some c.pass ∧ c.visit = c.pass.visit mod c.function c.pass.state

/-- Whether the call reports that it modified its function. -/
def modified (c : Call σ) : Bool :=
  match c.visit.result with
  | .ok modified => modified
  | .error _ => false

/-- The call did not fail. -/
def Succeeds (c : Call σ) : Prop := c.visit.result = .ok c.modified

theorem succeeds_of_ok {c : Call σ} {b : Bool} (h : c.visit.result = .ok b) :
    c.modified = b ∧ c.Succeeds := by
  have hmodified : c.modified = b := by rw [modified, h]
  exact ⟨hmodified, by rw [Succeeds, h, hmodified]⟩

end Call

/-- The calls `cs` are made one after the other; the passes are `ps` before them and `ps'` behind
them. -/
inductive Calls (mod : Module) : List (Pass σ) → List (Call σ) → List (Pass σ) → Prop
  | nil {ps : List (Pass σ)} : Calls mod ps [] ps
  | cons {ps ps' : List (Pass σ)} {c : Call σ} {cs : List (Call σ)} (hc : c.IsMade mod ps)
      (hcs : Calls mod (c.passesAfter ps) cs ps') : Calls mod ps (c :: cs) ps'

/-- What a pass is apart from its state. -/
def Pass.kind (p : Pass σ) : String × (Module → Function → σ → Visit σ) := (p.name, p.visit)

/-- A call changes a state and nothing else. -/
theorem Call.IsMade.map_kind {mod : Module} {ps : List (Pass σ)} {c : Call σ}
    (h : c.IsMade mod ps) : (c.passesAfter ps).map Pass.kind = ps.map Pass.kind := by
  obtain ⟨hlt, hpass⟩ := List.getElem?_eq_some_iff.mp h.1
  have hlt' : c.place < (ps.map Pass.kind).length := by rwa [List.length_map]
  have hkind : ({ c.pass with state := c.visit.state } : Pass σ).kind
      = (ps.map Pass.kind)[c.place] := by
    rw [List.getElem_map, hpass]
    rfl
  rw [Call.passesAfter, List.map_set, hkind, List.set_getElem_self]

theorem Calls.map_kind {mod : Module} {ps ps' : List (Pass σ)} {cs : List (Call σ)}
    (h : Calls mod ps cs ps') : ps'.map Pass.kind = ps.map Pass.kind := by
  induction h with
  | nil => rfl
  | cons hc _ ih => exact ih.trans hc.map_kind

/-! ## Warnings -/

/-- The warnings among events. -/
def warnings (events : List Event) : List Entry := (Event.log events).filter (·.level = .warn)

theorem warnings_append (es es' : List Event) :
    warnings (es ++ es') = warnings es ++ warnings es' := by
  rw [warnings, Event.log, List.filterMap_append, List.filter_append]
  rfl

/-- That a pass is called is no warning. -/
theorem warnings_flatMap_events (cs : List (Call σ)) :
    warnings (cs.flatMap Call.events) = cs.flatMap fun c => warnings c.visit.events := by
  induction cs with
  | nil => rfl
  | cons c cs ih =>
    have hcall : warnings c.events = warnings c.visit.events := rfl
    rw [List.flatMap_cons, warnings_append, ih, hcall, List.flatMap_cons]

/-! ## Following a plan -/

/-- What comes of following a plan: calls along it until one fails, the passes behind the last call,
and the result. -/
inductive Follows (mod : Module) : List (Pass σ) → List (Function × Nat) → List (Call σ) →
    List (Pass σ) → Except PassFault Bool → Prop
  | done {ps : List (Pass σ)} : Follows mod ps [] [] ps (.ok false)
  | failed {ps : List (Pass σ)} {c : Call σ} {plan : List (Function × Nat)} {e : PassFault}
      (hc : c.IsMade mod ps) (hresult : c.visit.result = .error e) :
      Follows mod ps (c.target :: plan) [c] (c.passesAfter ps) (.error e)
  | step {ps ps' : List (Pass σ)} {c : Call σ} {cs : List (Call σ)} {plan : List (Function × Nat)}
      {b : Bool} {r : Except PassFault Bool} (hc : c.IsMade mod ps)
      (hresult : c.visit.result = .ok b) (hcs : Follows mod (c.passesAfter ps) plan cs ps' r) :
      Follows mod ps (c.target :: plan) (c :: cs) ps' (r.map (b || ·))

namespace Follows

variable {mod : Module} {ps ps' ps'' : List (Pass σ)} {plan plan' : List (Function × Nat)}
  {cs cs' : List (Call σ)} {r : Except PassFault Bool} {b : Bool} {e : PassFault}

/-! ### What is known of calls that follow a plan -/

theorem calls (h : Follows mod ps plan cs ps' r) : Calls mod ps cs ps' := by
  induction h with
  | done => exact .nil
  | failed hc _ => exact .cons hc .nil
  | step hc _ _ ih => exact .cons hc ih

theorem planned (h : Follows mod ps plan cs ps' r) : cs.map Call.target <+: plan := by
  induction h with
  | done => exact List.prefix_rfl
  | failed _ _ => exact List.prefix_append [_] _
  | step _ _ _ ih => exact (List.prefix_cons_inj _).mpr ih

/-- Without a failure the whole plan was followed. -/
theorem of_ok (h : Follows mod ps plan cs ps' (.ok b)) :
    cs.map Call.target = plan ∧ (∀ c ∈ cs, c.Succeeds) ∧ b = cs.any Call.modified := by
  generalize hr : (Except.ok b : Except PassFault Bool) = r at h
  induction h generalizing b with
  | done => cases hr; exact ⟨rfl, by simp, rfl⟩
  | failed _ _ => cases hr
  | @step ps ps' c cs plan b₁ r _ hresult _ ih =>
    cases r with
    | error e => cases hr
    | ok b₂ =>
      cases hr
      obtain ⟨hplan, hall, hany⟩ := ih rfl
      obtain ⟨hmodified, hsucceeds⟩ := Call.succeeds_of_ok hresult
      refine ⟨by rw [List.map_cons, hplan], List.forall_mem_cons.mpr ⟨hsucceeds, hall⟩, ?_⟩
      rw [List.any_cons, hmodified, ← hany]

/-- A failure is that of the last call, and no call before it fails. -/
theorem of_error (h : Follows mod ps plan cs ps' (.error e)) :
    ∃ first last, cs = first ++ [last] ∧ (∀ c ∈ first, c.Succeeds)
      ∧ last.visit.result = .error e := by
  generalize hr : (Except.error e : Except PassFault Bool) = r at h
  induction h with
  | done => cases hr
  | failed _ hresult => cases hr; exact ⟨[], _, rfl, by simp, hresult⟩
  | @step ps ps' c cs plan b r _ hresult _ ih =>
    cases r with
    | ok b' => cases hr
    | error e' =>
      cases hr
      obtain ⟨first, last, rfl, hall, hlast⟩ := ih rfl
      have hsucceeds := (Call.succeeds_of_ok hresult).2
      exact ⟨c :: first, last, rfl, List.forall_mem_cons.mpr ⟨hsucceeds, hall⟩, hlast⟩

/-! ### Plans one after the other -/

/-- Calls that failed follow every longer plan. -/
theorem stop (h : Follows mod ps plan cs ps' (.error e)) (plan' : List (Function × Nat)) :
    Follows mod ps (plan ++ plan') cs ps' (.error e) := by
  generalize hr : (Except.error e : Except PassFault Bool) = r at h ⊢
  induction h with
  | done => cases hr
  | failed hc hresult => exact .failed hc hresult
  | @step ps ps' c cs plan b r hc hresult _ ih =>
    cases r with
    | ok b' => cases hr
    | error e' =>
      cases hr
      exact .step hc hresult (ih rfl)

/-- Calls that did not fail may go on with another plan. -/
theorem append (h : Follows mod ps plan cs ps' (.ok b)) (h' : Follows mod ps' plan' cs' ps'' r) :
    Follows mod ps (plan ++ plan') (cs ++ cs') ps'' (r.map (b || ·)) := by
  generalize hr : (Except.ok b : Except PassFault Bool) = r₁ at h
  induction h generalizing b with
  | done =>
    cases hr
    cases r <;> exact h'
  | failed _ _ => cases hr
  | @step ps ps' c cs plan b₁ r₁ hc hresult _ ih =>
    cases r₁ with
    | error e => cases hr
    | ok b₂ =>
      cases hr
      have hstep := Follows.step hc hresult (ih h' rfl)
      have hmodified : (r.map (b₂ || ·)).map (b₁ || ·) = r.map ((b₁ || b₂) || ·) := by
        cases r with
        | error e => rfl
        | ok b₃ => exact congrArg Except.ok (Bool.or_assoc b₁ b₂ b₃).symm
      rw [hmodified] at hstep
      exact hstep

end Follows

namespace Manager

/-! ## Runs -/

/-- The visits of a function by all passes behind the first ones follow the plan. The induction is
on these passes; those in front of them only give them their places. -/
theorem follows_visitAll (mod : Module) (f : Function) (before rest : List (Pass σ)) :
    ∃ cs, Follows mod (before ++ rest) ((List.range' before.length rest.length).map (f, ·)) cs
        (before ++ (visitAll mod f rest).2.1) (visitAll mod f rest).2.2
      ∧ (visitAll mod f rest).1 = cs.flatMap Call.events := by
  induction rest generalizing before with
  | nil => exact ⟨[], .done, rfl⟩
  | cons p rest ih =>
    -- The call of `p`, which stands behind `before`.
    let c : Call σ := ⟨f, before.length, p, p.visit mod f p.state⟩
    have hc : c.IsMade mod (before ++ p :: rest) := by
      refine ⟨?_, rfl⟩
      rw [List.getElem?_append_right (Nat.le_refl _), Nat.sub_self]
      rfl
    have hafter : c.passesAfter (before ++ p :: rest)
        = before ++ { p with state := c.visit.state } :: rest := by
      rw [Call.passesAfter, List.set_append_right _ _ (Nat.le_refl _), Nat.sub_self]
      rfl
    rw [List.length_cons, List.range'_succ, List.map_cons]
    cases hresult : (p.visit mod f p.state).result with
    | error e =>
      simp only [visitAll, hresult]
      refine ⟨[c], ?_, (List.append_nil c.events).symm⟩
      rw [← hafter]
      exact .failed hc hresult
    | ok b =>
      obtain ⟨cs, hcs, hevents⟩ := ih (before ++ [{ p with state := c.visit.state }])
      rw [List.append_assoc, List.append_assoc, List.length_append] at hcs
      simp only [visitAll, hresult]
      refine ⟨c :: cs, .step hc hresult (hafter ▸ hcs), ?_⟩
      rw [List.flatMap_cons, ← hevents]
      rfl

/-- The visits of functions follow the plan. -/
theorem follows_visitEach (mod : Module) (ps : List (Pass σ)) (fs : List Function) :
    ∃ cs, Follows mod ps (fs ×ˢ List.range ps.length) cs (visitEach mod ps fs).2.1
        (visitEach mod ps fs).2.2
      ∧ (visitEach mod ps fs).1 = cs.flatMap Call.events := by
  induction fs generalizing ps with
  | nil => exact ⟨[], .done, rfl⟩
  | cons f fs ih =>
    obtain ⟨cs, hcs, hevents⟩ := follows_visitAll mod f [] ps
    rw [List.nil_append, List.nil_append, List.length_nil, ← List.range_eq_range'] at hcs
    rw [List.product_cons]
    cases hresult : (visitAll mod f ps).2.2 with
    | error e =>
      simp only [visitEach, hresult]
      rw [hresult] at hcs
      exact ⟨cs, hcs.stop _, hevents⟩
    | ok b =>
      rw [hresult] at hcs
      obtain ⟨cs', hcs', hevents'⟩ := ih (visitAll mod f ps).2.1
      have hlength : (visitAll mod f ps).2.1.length = ps.length := by
        simpa using congrArg List.length hcs.calls.map_kind
      rw [hlength] at hcs'
      simp only [visitEach, hresult]
      exact ⟨cs ++ cs', hcs.append hcs', by rw [hevents, hevents', List.flatMap_append]⟩

/-- What a run calls unless a call fails: the definitions that are selected, in source order, each
with all of the passes. -/
def plan (m : Manager σ) (mod : Module) : List (Function × Nat) :=
  m.selected mod ×ˢ List.range m.passes.length

/-- The filter asks for a name that no definition has. -/
def Misses (m : Manager σ) (mod : Module) : Prop :=
  ∃ name, m.filter? = some name ∧ ∀ f ∈ mod.definitions, f.name ≠ name

/-- What is told behind the last call of a run with the result `r`. -/
def ending (m : Manager σ) (mod : Module) (r : Except PassFault Bool) : List Event :=
  match r with
  | .ok modified => m.closing mod modified
  | .error _ => []

/-- What a run comes to: the calls `cs`, and nothing else. -/
structure Ran (m : Manager σ) (mod : Module) (r : Run σ) (cs : List (Call σ)) : Prop where
  /-- Each call finds its pass in the state that the call before it has left. -/
  calls : Calls mod m.passes cs r.manager.passes
  /-- What is told and written comes from the calls, but for the end. -/
  events : r.events = cs.flatMap Call.events ++ m.ending mod r.result
  /-- The calls are the plan, or a beginning of it. -/
  planned : cs.map Call.target <+: m.plan mod
  /-- Declarations are not called on. -/
  defined : ∀ c ∈ cs, c.function ∈ mod.functions ∧ c.function.isDeclaration = false
  /-- A run that does not fail calls all that is planned, and tells whether a call has modified its
  function. -/
  of_ok : ∀ b, r.result = .ok b →
    cs.map Call.target = m.plan mod ∧ (∀ c ∈ cs, c.Succeeds) ∧ b = cs.any Call.modified
  /-- A run that fails ends with the first call that fails, and with the fault of this call. -/
  of_error : ∀ e, r.result = .error e →
    ∃ first last, cs = first ++ [last] ∧ (∀ c ∈ first, c.Succeeds) ∧ last.visit.result = .error e
  /-- A run that does not fail warns once if the filter misses, and else not at all. -/
  warns_of_ok : ∀ b, r.result = .ok b → ∃ own,
    warnings r.events = (cs.flatMap fun c => warnings c.visit.events) ++ own
      ∧ (m.Misses mod → own.length = 1) ∧ (¬ m.Misses mod → own = [])
  /-- A run that fails does not warn. -/
  warns_of_error : ∀ e, r.result = .error e →
    warnings r.events = cs.flatMap fun c => warnings c.visit.events
  filter : r.manager.filter? = m.filter?
  kinds : r.manager.passes.map Pass.kind = m.passes.map Pass.kind

/-- Nothing is selected where the filter misses. -/
theorem selected_eq_nil_iff {m : Manager σ} {mod : Module} {name : String}
    (h : m.filter? = some name) : m.selected mod = [] ↔ ∀ f ∈ mod.definitions, f.name ≠ name := by
  rw [selected, List.filter_eq_nil_iff]
  refine forall₂_congr fun f _ => ?_
  rw [selects, h, beq_iff_eq]

/-- What is told at the end of a run that does not fail. -/
theorem warnings_closing (m : Manager σ) (mod : Module) (b : Bool) :
    (m.Misses mod → (warnings (m.closing mod b)).length = 1)
      ∧ (¬ m.Misses mod → warnings (m.closing mod b) = []) := by
  cases hfilter : m.filter? with
  | none =>
    have hmisses : ¬ m.Misses mod := by
      rintro ⟨name, hname, _⟩
      rw [hfilter] at hname
      cases hname
    refine ⟨fun h => absurd h hmisses, fun _ => ?_⟩
    simp only [closing, hfilter]
    rfl
  | some name =>
    -- `closing` asks how many functions were selected, not whether one of them has the name.
    have hmisses : m.Misses mod ↔ (m.selected mod).length = 0 := by
      rw [List.length_eq_zero_iff, selected_eq_nil_iff hfilter, Misses, hfilter]
      refine ⟨fun ⟨name', hname, h⟩ => ?_, fun h => ⟨name, rfl, h⟩⟩
      cases hname
      exact h
    rw [hmisses]
    simp only [closing, hfilter]
    refine ⟨fun h => ?_, fun h => ?_⟩
    · rw [if_pos h]
      rfl
    · rw [if_neg h]
      rfl

/-- A run, seen from the visits that it consists of. -/
theorem run_eq (m : Manager σ) (mod : Module) :
    m.run mod = ⟨(visitEach mod m.passes (m.selected mod)).1
        ++ m.ending mod (visitEach mod m.passes (m.selected mod)).2.2,
      { m with passes := (visitEach mod m.passes (m.selected mod)).2.1 },
      (visitEach mod m.passes (m.selected mod)).2.2⟩ := by
  cases hresult : (visitEach mod m.passes (m.selected mod)).2.2 with
  | error e => simp only [run, hresult, ending, List.append_nil]
  | ok b => simp only [run, hresult, ending]

/-- **Every run is a row of calls along its plan.** -/
theorem exists_ran (m : Manager σ) (mod : Module) : ∃ cs, m.Ran mod (m.run mod) cs := by
  obtain ⟨cs, hcs, hevents⟩ := follows_visitEach mod m.passes (m.selected mod)
  have hdefined : ∀ c ∈ cs, c.function ∈ mod.functions ∧ c.function.isDeclaration = false := by
    intro c hc
    have htarget := hcs.planned.subset (List.mem_map_of_mem hc)
    have hselected : c.function ∈ mod.definitions :=
      (List.mem_filter.mp (List.mem_product.mp htarget).1).1
    obtain ⟨hmem, hbody⟩ := List.mem_filter.mp hselected
    exact ⟨hmem, by simpa using hbody⟩
  have hwarnings : ∀ r, warnings ((visitEach mod m.passes (m.selected mod)).1 ++ m.ending mod r)
      = (cs.flatMap fun c => warnings c.visit.events) ++ warnings (m.ending mod r) := by
    intro r
    rw [warnings_append, hevents, warnings_flatMap_events]
  rw [run_eq]
  refine ⟨cs, ?_⟩
  generalize (visitEach mod m.passes (m.selected mod)).2.2 = r at hcs
  exact {
    calls := hcs.calls
    events := by rw [hevents]
    planned := hcs.planned
    defined := hdefined
    of_ok := fun b hb => by cases hb; exact hcs.of_ok
    of_error := fun e he => by cases he; exact hcs.of_error
    warns_of_ok := fun b hb => by
      cases hb
      exact ⟨_, hwarnings _, m.warnings_closing mod b⟩
    warns_of_error := fun e he => by
      cases he
      rw [hwarnings]
      exact List.append_nil _
    filter := rfl
    kinds := hcs.calls.map_kind }

end Manager

end IrRecords

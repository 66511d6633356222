import IrRecords.Proofs.Pass.Calls
import Mathlib.Data.List.Induction

/-!
# What a manager remembers

A manager is used many times: passes are added, the filter is replaced, modules are run on, and some
of the runs fail. What is left of all this is the filter that was set last, the passes in the order
in which they were added, and the state of each pass, which is the one that its last call has left
it in. `ran_after` says so for every row of operations, together with what the next run then does.
-/

namespace IrRecords

variable {σ : Type}

/-! ## Operations -/

/-- What can be done with a manager. -/
inductive Operation (σ : Type) where
  | add (p : Pass σ)
  | filter (name? : Option String)
  | run (mod : Module)

namespace Operation

/-- The manager behind an operation. -/
def apply (m : Manager σ) : Operation σ → Manager σ
  | add p => m.add p
  | filter name? => m.withFilter name?
  | run mod => (m.run mod).manager

/-- The manager behind a row of operations on a new one. -/
def after (ops : List (Operation σ)) : Manager σ := ops.foldl apply .empty

/-- The passes that operations add. -/
def added (ops : List (Operation σ)) : List (Pass σ) :=
  ops.filterMap fun
    | add p => some p
    | filter _ | run _ => none

/-- The filter behind an operation, if `name?` is the one in front of it. -/
def filterFrom (name? : Option String) : Operation σ → Option String
  | filter name? => name?
  | add _ | run _ => name?

@[simp] theorem added_add (ops : List (Operation σ)) (p : Pass σ) :
    added (ops ++ [.add p]) = added ops ++ [p] := by simp [added]

@[simp] theorem added_filter (ops : List (Operation σ)) (name? : Option String) :
    added (ops ++ [.filter name?]) = added ops := by simp [added]

@[simp] theorem added_run (ops : List (Operation σ)) (mod : Module) :
    added (ops ++ [.run mod]) = added ops := by simp [added]

theorem after_concat (ops : List (Operation σ)) (op : Operation σ) :
    after (ops ++ [op]) = op.apply (after ops) := by
  rw [after, List.foldl_append, ← after]
  rfl

end Operation

open Operation

/-! ## Histories -/

/-- All calls of the runs in a row of operations on a new manager. -/
inductive History : List (Operation σ) → List (Call σ) → Prop
  | nil : History [] []
  | add {ops : List (Operation σ)} {cs : List (Call σ)} (h : History ops cs) (p : Pass σ) :
      History (ops ++ [.add p]) cs
  | filter {ops : List (Operation σ)} {cs : List (Call σ)} (h : History ops cs)
      (name? : Option String) : History (ops ++ [.filter name?]) cs
  | run {ops : List (Operation σ)} {cs cs' : List (Call σ)} {mod : Module} (h : History ops cs)
      (hran : (after ops).Ran mod ((after ops).run mod) cs') :
      History (ops ++ [.run mod]) (cs ++ cs')

/-- The state that calls leave the pass at a place in, if it was `s` before. -/
def stateAfter (place : Nat) (s : σ) (cs : List (Call σ)) : σ :=
  cs.foldl (fun s c => if c.place = place then c.visit.state else s) s

theorem stateAfter_append (place : Nat) (s : σ) (cs cs' : List (Call σ)) :
    stateAfter place s (cs ++ cs') = stateAfter place (stateAfter place s cs) cs' :=
  List.foldl_append

/-- A pass that is not called keeps its state. -/
theorem stateAfter_of_ne {place : Nat} {cs : List (Call σ)} (h : ∀ c ∈ cs, c.place ≠ place)
    (s : σ) : stateAfter place s cs = s := by
  induction cs generalizing s with
  | nil => rfl
  | cons c cs ih =>
    obtain ⟨hc, hcs⟩ := List.forall_mem_cons.mp h
    rw [stateAfter, List.foldl_cons, if_neg hc]
    exact ih hcs s

namespace Calls

variable {mod : Module} {ps ps' : List (Pass σ)} {cs : List (Call σ)}

theorem place_lt (h : Calls mod ps cs ps') : ∀ c ∈ cs, c.place < ps.length := by
  induction h with
  | nil => simp
  | cons hc _ ih =>
    rw [Call.passesAfter, List.length_set] at ih
    exact List.forall_mem_cons.mpr ⟨(List.getElem?_eq_some_iff.mp hc.1).1, ih⟩

/-- The state of a pass behind calls is the one that its last call has left. -/
theorem getElem?_eq (h : Calls mod ps cs ps') (place : Nat) :
    ps'[place]? = ps[place]?.map fun p => { p with state := stateAfter place p.state cs } := by
  induction h with
  | nil => simp [stateAfter]
  | @cons ps ps' c cs hc _ ih =>
    rw [ih, Call.passesAfter, List.getElem?_set]
    by_cases hplace : c.place = place
    · have hlt := (List.getElem?_eq_some_iff.mp hc.1).1
      rw [if_pos hplace, if_pos (hplace ▸ hlt), ← hplace, hc.1, Option.map_some, Option.map_some,
        stateAfter, stateAfter, List.foldl_cons, if_pos rfl]
    · rw [if_neg hplace]
      refine Option.map_congr fun p _ => ?_
      rw [stateAfter, stateAfter, List.foldl_cons, if_neg hplace]

end Calls

/-- Every row of operations has a history. -/
theorem exists_history (ops : List (Operation σ)) : ∃ cs, History ops cs := by
  induction ops using List.reverseRecOn with
  | nil => exact ⟨[], .nil⟩
  | append_singleton ops op ih =>
    obtain ⟨cs, h⟩ := ih
    cases op with
    | add p => exact ⟨cs, h.add p⟩
    | filter name? => exact ⟨cs, h.filter name?⟩
    | run mod =>
      obtain ⟨cs', hran⟩ := (after ops).exists_ran mod
      exact ⟨cs ++ cs', h.run hran⟩

namespace History

variable {ops : List (Operation σ)} {cs : List (Call σ)}

/-- The filter is the one that was set last. -/
theorem filter_eq (h : History ops cs) : (after ops).filter? = ops.foldl filterFrom none := by
  induction h with
  | nil => rfl
  | add _ p ih =>
    rw [after_concat, List.foldl_append, ← ih]
    rfl
  | filter _ name? _ =>
    rw [after_concat, List.foldl_append]
    rfl
  | run _ hran ih =>
    rw [after_concat, List.foldl_append, ← ih]
    exact hran.filter

theorem length_passes (h : History ops cs) : (after ops).passes.length = (added ops).length := by
  induction h with
  | nil => rfl
  | add _ p ih =>
    rw [after_concat, added_add, List.length_append, ← ih]
    exact List.length_append
  | filter _ name? ih => rw [after_concat, added_filter, ← ih]; rfl
  | run _ hran ih =>
    rw [after_concat, added_run, ← ih]
    have hlength := congrArg List.length hran.kinds
    rw [List.length_map, List.length_map] at hlength
    exact hlength

/-- Calls are made to passes that were added before. -/
theorem place_lt (h : History ops cs) : ∀ c ∈ cs, c.place < (added ops).length := by
  induction h with
  | nil => simp
  | add _ p ih =>
    intro c hc
    rw [added_add, List.length_append]
    exact Nat.lt_add_right _ (ih c hc)
  | filter _ name? ih => rw [added_filter]; exact ih
  | run h hran ih =>
    rw [added_run, ← h.length_passes] at *
    exact List.forall_mem_append.mpr ⟨ih, hran.calls.place_lt⟩

/-- The passes are those that were added, in their order, each in the state that its last call has
left it in. -/
theorem getElem?_eq (h : History ops cs) (place : Nat) : (after ops).passes[place]?
    = (added ops)[place]?.map fun p => { p with state := stateAfter place p.state cs } := by
  induction h with
  | nil => rfl
  | @add ops cs h p ih =>
    rw [after_concat, added_add]
    change ((after ops).passes ++ [p])[place]? = _
    rcases Nat.lt_or_ge place (added ops).length with hlt | hge
    · rw [List.getElem?_append_left hlt, List.getElem?_append_left (h.length_passes ▸ hlt), ih]
    · -- Nothing has been called at a place that is new.
      have hstate : ∀ q : Pass σ,
          ({ q with state := stateAfter place q.state cs } : Pass σ) = q := by
        intro q
        rw [stateAfter_of_ne fun c hc => Nat.ne_of_lt (Nat.lt_of_lt_of_le (h.place_lt c hc) hge)]
      rw [List.getElem?_append_right hge, List.getElem?_append_right (h.length_passes ▸ hge),
        h.length_passes]
      simp only [hstate, Option.map_id']
  | filter _ name? ih => rw [after_concat, added_filter]; exact ih
  | run _ hran ih =>
    rw [after_concat, added_run]
    refine (hran.calls.getElem?_eq place).trans ?_
    rw [ih, Option.map_map]
    refine Option.map_congr fun p _ => ?_
    rw [Function.comp, stateAfter_append]

end History

/-- **Runs of a manager.** Whatever is done with a new manager, its filter is then the one that was
set last, and its passes are those that were added, in their order, each in the state that its last
call so far has left it in, be it in a run that failed. Every run on any module is then a row of
calls along the plan, as `Manager.Ran` says it. -/
theorem ran_after (ops : List (Operation σ)) : ∃ cs, History ops cs
    ∧ (after ops).filter? = ops.foldl filterFrom none
    ∧ (∀ place : Nat, (after ops).passes[place]?
      = (added ops)[place]?.map fun p => { p with state := stateAfter place p.state cs })
    ∧ ∀ mod, ∃ cs', (after ops).Ran mod ((after ops).run mod) cs' := by
  obtain ⟨cs, h⟩ := exists_history ops
  exact ⟨cs, h, h.filter_eq, h.getElem?_eq, fun mod => (after ops).exists_ran mod⟩

end IrRecords

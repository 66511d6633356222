import IrRecords.Ty.Table
import Mathlib.Data.List.Nodup
import Mathlib.Data.List.Perm.Basic

/-!
# Tables of structs

A table answers for each name the body that was given last, and it has one entry for a name. So the order
in which structs are defined matters only among the definitions of one name: rows of definitions that
agree name by name make tables with the same entries (`sameEntries_insertAll`). Steps through types look
at the answers of a table only, so they do not tell such tables apart.
-/

namespace IrRecords.TypeTable

variable {t t' : TypeTable} {name other : String} {body : StructBody}
  {ds ds' : List (String × StructBody)}

/-- Gives several structs their bodies, one after the other. -/
def insertAll (t : TypeTable) (ds : List (String × StructBody)) : TypeTable :=
  ds.foldl (fun t d => t.insert d.1 d.2) t

theorem insertAll_append (t : TypeTable) (ds ds' : List (String × StructBody)) :
    t.insertAll (ds ++ ds') = (t.insertAll ds).insertAll ds' :=
  List.foldl_append

/-! ## Answers -/

@[simp] theorem get?_insert_self (t : TypeTable) (name : String) (body : StructBody) :
    (t.insert name body).get? name = some body := by
  rw [get?, insert]
  induction t.entries with
  | nil => rw [insertEntry, List.lookup_cons_self]
  | cons e rest ih =>
    obtain ⟨first, old⟩ := e
    rw [insertEntry]
    by_cases h : first = name
    · rw [if_pos h, List.lookup_cons_self]
    · rw [if_neg h, List.lookup_cons, beq_eq_false_iff_ne.mpr (Ne.symm h)]
      exact ih

theorem get?_insert_of_ne (t : TypeTable) (body : StructBody) (h : other ≠ name) :
    (t.insert name body).get? other = t.get? other := by
  rw [get?, get?, insert]
  induction t.entries with
  | nil => rw [insertEntry, List.lookup_cons, beq_eq_false_iff_ne.mpr h]
  | cons e rest ih =>
    obtain ⟨first, old⟩ := e
    rw [insertEntry]
    by_cases hfirst : first = name
    · subst hfirst
      rw [if_pos rfl, List.lookup_cons, List.lookup_cons, beq_eq_false_iff_ne.mpr h]
    · rw [if_neg hfirst, List.lookup_cons, List.lookup_cons]
      split
      · rfl
      · exact ih

/-- Only the definitions of a name matter to the answer for it. -/
theorem get?_insertAll_filter (h : t.get? name = t'.get? name) (ds : List (String × StructBody)) :
    (t.insertAll ds).get? name = (t'.insertAll (ds.filter (·.1 == name))).get? name := by
  induction ds generalizing t t' with
  | nil => exact h
  | cons d ds ih =>
    by_cases hd : d.1 = name
    · rw [List.filter_cons, if_pos (beq_iff_eq.mpr hd)]
      refine ih ?_
      dsimp only
      rw [hd, get?_insert_self, get?_insert_self]
    · rw [List.filter_cons, if_neg (by rwa [beq_iff_eq])]
      refine ih ?_
      dsimp only
      rw [get?_insert_of_ne _ _ (Ne.symm hd), h]

/-- Where there is no answer, nothing was defined. -/
theorem filter_eq_nil_of_get?_insertAll (h : (t.insertAll ds).get? name = none) :
    t.get? name = none ∧ ds.filter (·.1 == name) = [] := by
  induction ds generalizing t with
  | nil => exact ⟨h, rfl⟩
  | cons d ds ih =>
    obtain ⟨hnone, hds⟩ := ih h
    dsimp only at hnone
    by_cases hd : d.1 = name
    · rw [hd, get?_insert_self] at hnone
      cases hnone
    · rw [get?_insert_of_ne _ _ (Ne.symm hd)] at hnone
      rw [List.filter_cons, if_neg (by rwa [beq_iff_eq])]
      exact ⟨hnone, hds⟩

/-! ## Entries -/

/-- No name has two entries. -/
def Distinct (t : TypeTable) : Prop := (t.entries.map Prod.fst).Nodup

theorem distinct_empty : empty.Distinct := List.nodup_nil

theorem Distinct.insert (h : t.Distinct) (name : String) (body : StructBody) :
    (t.insert name body).Distinct := by
  -- An entry is replaced where it stands or put at the end: the names stay, or a new one follows.
  have hkeys : ∀ entries : List (String × StructBody),
      (insertEntry name body entries).map Prod.fst = entries.map Prod.fst
        ∨ (insertEntry name body entries).map Prod.fst = entries.map Prod.fst ++ [name]
          ∧ name ∉ entries.map Prod.fst := by
    intro entries
    induction entries with
    | nil => exact .inr ⟨rfl, List.not_mem_nil⟩
    | cons e rest ih =>
      obtain ⟨first, old⟩ := e
      rw [insertEntry]
      by_cases hfirst : first = name
      · subst hfirst
        rw [if_pos rfl]
        exact .inl rfl
      · rw [if_neg hfirst]
        refine ih.imp (congrArg (first :: ·)) fun ⟨hmap, hmem⟩ => ⟨congrArg (first :: ·) hmap, ?_⟩
        exact List.not_mem_cons_of_ne_of_not_mem (Ne.symm hfirst) hmem
  rw [Distinct, TypeTable.insert]
  rcases hkeys t.entries with hsame | ⟨hmore, hnew⟩
  · rw [hsame]
    exact h
  · rw [hmore]
    exact List.nodup_append.mpr ⟨h, List.nodup_singleton name, fun x hx y hy => by
      rw [List.mem_singleton.mp hy]
      rintro rfl
      exact hnew hx⟩

theorem Distinct.insertAll (h : t.Distinct) (ds : List (String × StructBody)) :
    (t.insertAll ds).Distinct := by
  induction ds generalizing t with
  | nil => exact h
  | cons d ds ih => exact ih (h.insert d.1 d.2)

/-- The entries are the answers. -/
theorem Distinct.mem_entries_iff (h : t.Distinct) :
    (name, body) ∈ t.entries ↔ t.get? name = some body := by
  rw [Distinct] at h
  rw [get?]
  generalize t.entries = entries at h
  induction entries with
  | nil => simp
  | cons e rest ih =>
    obtain ⟨first, old⟩ := e
    rw [List.map_cons, List.nodup_cons] at h
    rw [List.mem_cons, List.lookup_cons]
    by_cases hname : name = first
    · subst hname
      have hrest : (name, body) ∉ rest := fun hmem => h.1 (List.mem_map.mpr ⟨_, hmem, rfl⟩)
      simp [hrest, eq_comm]
    · rw [beq_eq_false_iff_ne.mpr hname, ← ih h.2]
      simp [hname]

/-- Both tables answer alike, and they have the same entries, which may stand in another order. -/
structure SameEntries (t t' : TypeTable) : Prop where
  get? : ∀ name, t'.get? name = t.get? name
  entries : t'.entries.Perm t.entries

/-- **What is defined last counts for each name.** -/
theorem sameEntries_insertAll
    (h : ∀ name, ds'.filter (·.1 == name) = ds.filter (·.1 == name)) :
    SameEntries (empty.insertAll ds) (empty.insertAll ds') := by
  have hget : ∀ name, (empty.insertAll ds').get? name = (empty.insertAll ds).get? name := by
    intro name
    rw [get?_insertAll_filter rfl ds', get?_insertAll_filter rfl ds, h name]
  have hdistinct := distinct_empty.insertAll ds
  have hdistinct' := distinct_empty.insertAll ds'
  refine ⟨hget, ?_⟩
  refine (List.perm_ext_iff_of_nodup hdistinct'.of_map hdistinct.of_map).mpr fun ⟨name, body⟩ => ?_
  rw [hdistinct'.mem_entries_iff, hdistinct.mem_entries_iff, hget]

/-! ## Steps through types -/

theorem SameEntries.fields (h : SameEntries t t') : t'.fields = t.fields := by
  funext ty
  cases ty with
  | named name => rw [TypeTable.fields, TypeTable.fields, h.get?]
  | _ => rfl

theorem SameEntries.indexed (h : SameEntries t t') : t'.indexed = t.indexed := by
  funext ty indices
  have hfield : t'.field = t.field := by
    funext ty index
    cases index with
    | none => rfl
    | some index => rw [TypeTable.field, TypeTable.field, h.fields]
  induction indices generalizing ty with
  | nil => rfl
  | cons index rest ih =>
    have hstep : t'.step ty index = t.step ty index := by
      cases ty <;> first | rfl | exact congrFun (congrFun hfield _) _
    rw [TypeTable.indexed, TypeTable.indexed, hstep]
    split
    · rfl
    · exact ih _

end IrRecords.TypeTable

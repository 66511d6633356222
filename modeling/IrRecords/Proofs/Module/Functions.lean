import IrRecords.Module.Reader
import IrRecords.Proofs.Function.Canonical

/-!
# The functions of a module

A module collects functions one after the other. Two facts about the collection are invariants of
its loop: every function in it was laid out from a well-formed draft, and no two functions of it
share a name, those without one apart. The second is what the table of names is for, so the
invariant has to say that the table knows every name that was given away.
-/

namespace IrRecords

/-! ## Traced computations -/

/-- A computation that goes on after a traced one has a result if both of them have. -/
theorem Traced.bind_eq_ok_iff {ε α β : Type} {t : Traced ε α} {f : α → Traced ε β} {b : β} :
    (t >>= f).result = .ok b ↔ ∃ a, t.result = .ok a ∧ (f a).result = .ok b := by
  cases t with
  | mk log result =>
    cases result with
    | error e =>
      refine ⟨fun h => (by cases h), ?_⟩
      rintro ⟨a, ha, _⟩
      cases ha
    | ok a =>
      refine ⟨fun h => ⟨a, rfl, h⟩, ?_⟩
      rintro ⟨a', ha, h⟩
      cases ha
      exact h

/-! ## Single functions -/

/-- The function was laid out from a well-formed draft. -/
def Function.IsRead (f : Function) : Prop := ∃ d : Draft, d.WellFormed ∧ d.finish = .ok f

namespace Function

/-- A declaration is a draft without statements, laid out. -/
theorem readDeclaration_spec {c c' : Cursor} {f : Function}
    (h : (readDeclaration c).result = .ok (f, c')) : f.IsRead := by
  rw [readDeclaration, Traced.bind_eq_ok_iff] at h
  obtain ⟨⟨header, c₁⟩, _, h⟩ := h
  obtain ⟨_, _, h⟩ := Traced.bind_eq_ok_iff.mp h
  obtain ⟨g, hg, h⟩ := Traced.bind_eq_ok_iff.mp h
  cases h
  cases hd : Draft.ofHeader header with
  | error e => simp only [Traced.ofExcept, hd] at hg; cases hg
  | ok d =>
    simp only [Traced.ofExcept, hd] at hg
    refine ⟨d, fun s hs => ?_, hg⟩
    rw [Draft.statements_ofHeader hd] at hs
    cases hs

theorem readDefinition_spec {ctx : Draft.Context} {c c' : Cursor} {f : Function}
    (h : (readDefinition ctx c).result = .ok (f, c')) : f.IsRead := by
  rw [readDefinition, Traced.bind_eq_ok_iff] at h
  obtain ⟨⟨header, c₁⟩, _, h⟩ := h
  obtain ⟨_, _, h⟩ := Traced.bind_eq_ok_iff.mp h
  exact readBody_spec ctx header c₁ f c' h

end Function

/-! ## The collection -/

namespace Module

/-- No two functions share a name, those without one apart. -/
def NamesDistinct (fs : List Function) : Prop :=
  fs.Pairwise fun f g => f.name = g.name → f.name = ""

/-- What holds of the functions read so far. -/
structure Progress.Sound (p : Progress) : Prop where
  functions : ∀ f ∈ p.functions, f.IsRead
  /-- The table knows every name that was given away. -/
  known : ∀ f ∈ p.functions, f.name ≠ "" → p.starts.lookup f.name ≠ none
  distinct : NamesDistinct p.functions.toList

/-- A function with a name of its own may join the functions there are. -/
private theorem NamesDistinct.push {fs : Array Function} {f : Function}
    (hfs : NamesDistinct fs.toList) (hf : ∀ g ∈ fs, g.name = f.name → g.name = "") :
    NamesDistinct (fs.push f).toList := by
  rw [NamesDistinct, Array.toList_push, List.pairwise_append]
  refine ⟨hfs, List.pairwise_singleton _ _, fun g hg g' hg' => ?_⟩
  rw [List.mem_singleton.mp hg']
  exact hf g (Array.mem_toList_iff.mp hg)

/-- Adding a function keeps the invariant: a name that is given away is refused. -/
theorem Progress.Sound.push {p p' : Progress} {f : Function} {position : Position}
    (hp : p.Sound) (hf : f.IsRead) (h : p.push f position = .ok p') : p'.Sound := by
  have hread : ∀ g ∈ p.functions.push f, g.IsRead := by
    intro g hg
    rcases Array.mem_push.mp hg with hg | rfl
    · exact hp.functions g hg
    · exact hf
  rw [Progress.push] at h
  -- A function without a name is not entered in the table.
  by_cases hname : f.name = ""
  · rw [if_pos hname] at h
    cases h
    refine ⟨hread, fun g hg hg' => ?_, hp.distinct.push fun g _ hg => hg.trans hname⟩
    rcases Array.mem_push.mp hg with hg | rfl
    · exact hp.known g hg hg'
    · exact absurd hname hg'
  · rw [if_neg hname] at h
    cases hlookup : p.starts.lookup f.name with
    | some first => rw [hlookup] at h; cases h
    | none =>
      rw [hlookup] at h
      cases h
      refine ⟨hread, fun g hg hg' => ?_, hp.distinct.push fun g hg hsame => ?_⟩
      · rw [List.lookup_cons]
        by_cases hsame : g.name = f.name
        · rw [beq_iff_eq.mpr hsame]
          exact Option.some_ne_none _
        · rw [beq_eq_false_iff_ne.mpr hsame]
          rcases Array.mem_push.mp hg with hg | rfl
          · exact hp.known g hg hg'
          · exact absurd rfl hsame
      · -- A function of the same name would be known, but the table has no such name.
        by_contra hg'
        exact hp.known g hg hg' (hsame ▸ hlookup)

/-- The loop over the items of a module keeps the invariant. -/
theorem readItems_spec {ctx : Draft.Context} {bound : List Token} {p p' : Progress} {c : Cursor}
    (hp : p.Sound) (h : (readItems ctx bound p c).result = .ok p') : p'.Sound := by
  induction bound generalizing p c with
  | nil => rw [readItems] at h; cases h
  | cons t bound ih =>
    rw [readItems] at h
    dsimp only at h
    split at h
    · cases h
      exact hp
    · obtain ⟨⟨f, c₁⟩, hf, h⟩ := Traced.bind_eq_ok_iff.mp h
      obtain ⟨p₁, hp₁, h⟩ := Traced.bind_eq_ok_iff.mp h
      exact ih (hp.push (Function.readDefinition_spec hf) hp₁) h
    · obtain ⟨⟨f, c₁⟩, hf, h⟩ := Traced.bind_eq_ok_iff.mp h
      obtain ⟨p₁, hp₁, h⟩ := Traced.bind_eq_ok_iff.mp h
      exact ih (hp.push (Function.readDeclaration_spec hf) hp₁) h
    · obtain ⟨⟨_, c₁⟩, _, h⟩ := Traced.bind_eq_ok_iff.mp h
      exact ih hp h

/-- **What is known of the functions of a module that has been read.** -/
theorem read_spec {source : String} {m : Module} (h : (Module.read source).result = .ok m) :
    (∀ f ∈ m.functions, f.IsRead) ∧ NamesDistinct m.functions := by
  rw [Module.read, Traced.bind_eq_ok_iff] at h
  obtain ⟨stream, _, h⟩ := h
  rw [ofStream, Traced.bind_eq_ok_iff] at h
  obtain ⟨⟨types, c₁⟩, _, h⟩ := h
  obtain ⟨p, hp, h⟩ := Traced.bind_eq_ok_iff.mp h
  cases h
  have hempty : Progress.Sound ⟨#[], []⟩ := ⟨by simp, by simp, List.Pairwise.nil⟩
  have hsound : p.Sound := readItems_spec hempty hp
  exact ⟨fun f hf => hsound.functions f (Array.mem_toList_iff.mp hf), hsound.distinct⟩

/-- The functions of a module that has been read have records. -/
theorem isSome_record?_of_read {source : String} {m : Module} {f : Function}
    (h : (Module.read source).result = .ok m) (hf : f ∈ m.functions) : f.record?.isSome := by
  obtain ⟨d, hd, hfinish⟩ := (read_spec h).1 f hf
  exact ((Draft.finish_spec hfinish).canonical hd).closed.record?_isSome

/-- **The layout of everything that has been read.** Every function of a module is laid out
canonically, so it has no place that does not exist, its definitions know their places, and its
record can be made. -/
theorem canonical_of_read {source : String} {m : Module} {f : Function}
    (h : (Module.read source).result = .ok m) (hf : f ∈ m.functions) :
    f.Canonical ∧ f.Closed ∧ f.PointsBack ∧ f.record?.isSome := by
  obtain ⟨d, hd, hfinish⟩ := (read_spec h).1 f hf
  have hcanonical : f.Canonical := (Draft.finish_spec hfinish).canonical hd
  have hclosed : f.Closed := hcanonical.closed
  exact ⟨hcanonical, hclosed, hcanonical.pointsBack, hclosed.record?_isSome⟩

/-- A loop with constants, a global, a void result in front of a used one, and references to what
comes further down. -/
def loopSource : String :=
  "define i32 @count(i32 %n) \x7b
entry:
  store i32 0, i32* @total
  br label %loop
loop:
  %i = phi i32 [ 0, %entry ], [ %next, %loop ]
  %next = add i32 %i, 1
  %more = icmp slt i32 %next, %n
  br i1 %more, label %loop, label %done
done:
  ret i32 %i
\x7d
"

/-- The functions that are read from `loopSource` are laid out canonically, and there is one. -/
theorem canonical_of_read_loop : ∃ m f, (Module.read loopSource).result = .ok m
    ∧ m.functions = [f] ∧ f.instrs.size = 7
    ∧ f.Canonical ∧ f.Closed ∧ f.PointsBack ∧ f.record?.isSome := by
  have hread : ((Module.read loopSource).result.toOption.map
      fun m => m.functions.map (·.instrs.size)) = some [7] := by decide +kernel
  cases hm : (Module.read loopSource).result with
  | error e => rw [hm] at hread; cases hread
  | ok m =>
    rw [hm, Except.toOption, Option.map_some, Option.some.injEq] at hread
    obtain ⟨f, hf, hsize⟩ := List.map_eq_singleton_iff.mp hread
    exact ⟨m, f, rfl, hf, hsize, canonical_of_read hm (by rw [hf]; exact List.mem_singleton_self f)⟩

end Module

end IrRecords

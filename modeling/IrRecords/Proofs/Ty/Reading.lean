import IrRecords.Proofs.Reader.Takes
import IrRecords.Proofs.Ty.Spelling
import IrRecords.Ty.Reader

/-!
# Reading the tokens of a type

The tokens of a type (`Ty.kinds`) are read as this type, provided that no suffix follows. A type is
a base with suffixes, and the tree has the suffixes outside and the base innermost, so the induction
goes down the tree while the reader goes along the tokens: `takes_spine` reads a type in front of a
loop over more suffixes, and each suffix of the type is one more round of this loop.

Nested types are read by a reader of less depth. The depth that is needed is bounded by the number
of tokens, since a nested type is shorter than the type around it.
-/

namespace IrRecords

/-! ## Lists in brackets -/

namespace Reader

variable {α γ : Type} {item : Reader α} {R : γ → α → Prop} {F : TokenKind → Prop}
  {kindsOf : γ → List TokenKind}

/-- One round of a list of items: one more item, and another round behind a comma. -/
def itemStep (item : Reader α) (items : Array α) : Reader (Round (Array α) (Array α)) := do
  let items := items.push (← item)
  if ← accept .comma then return .again items else return .done items

/-- One round of a list of parameters: three points end the list. -/
def paramStep (item : Reader α) (params : Array α) :
    Reader (Round (Array α) (Array α × Bool)) := do
  if ← accept .ellipsis then return .done (params, true)
  let params := params.push (← item)
  if ← accept .comma then return .again params else return .done (params, false)

theorem takes_itemStep_done {x : γ} {items : Array α}
    (hitem : item.Takes (kindsOf x) (R x) F) :
    (itemStep item items).Takes (kindsOf x)
      (fun r => ∃ result, r = .done result ∧ ∃ a, R x a ∧ result = items.push a)
      fun k => F k ∧ k ≠ .comma := by
  rw [itemStep]
  refine Takes.last hitem (fun k hk => hk.1) fun a ha => ?_
  exact Takes.accept_false (fun k hk => hk.2) (.pure ⟨_, rfl, a, ha, rfl⟩)

theorem takes_itemStep_again {x : γ} {items : Array α}
    (hitem : item.Takes (kindsOf x) (R x) F) (hcomma : F .comma) :
    (itemStep item items).Takes (kindsOf x ++ [.comma])
      (fun r => ∃ s, r = .again s ∧ ∃ a, R x a ∧ s = items.push a) fun _ => True := by
  rw [itemStep]
  refine Takes.bind hitem (fun _ _ => hcomma) fun a ha => ?_
  exact Takes.accept_true (.pure ⟨_, rfl, a, ha, rfl⟩)

/-- Items with commas between them, behind those that have been read. -/
theorem takes_iterate_itemStep {xs : List γ} (hne : xs ≠ [])
    (hitem : ∀ x ∈ xs, item.Takes (kindsOf x) (R x) F) (hcomma : F .comma) (items : Array α) :
    (iterate (itemStep item) items).Takes (listedKinds (xs.map kindsOf) false)
      (fun result => ∃ as, List.Forall₂ R xs as ∧ result.toList = items.toList ++ as)
      fun k => F k ∧ k ≠ .comma := by
  induction xs generalizing items with
  | nil => exact absurd rfl hne
  | cons x xs ih =>
    have hx := hitem x List.mem_cons_self
    cases xs with
    | nil =>
      refine (Takes.iterate_done (takes_itemStep_done hx)).mono ?_ fun _ h => h
      rintro result ⟨a, ha, rfl⟩
      exact ⟨[a], .cons ha .nil, Array.toList_push⟩
    | cons y xs =>
      -- The comma belongs to the round in front of it.
      rw [List.map_cons, List.map_cons, listedKinds_cons_cons, ← List.map_cons,
        ← List.singleton_append, ← List.append_assoc]
      refine Takes.iterate_again (takes_itemStep_again hx hcomma) (by simp)
        (fun _ _ => trivial) fun s hs => ?_
      obtain ⟨a, ha, rfl⟩ := hs
      refine (ih (by simp) (fun z hz => hitem z (List.mem_cons_of_mem _ hz)) _).mono ?_ fun _ h => h
      rintro result ⟨as, has, hresult⟩
      exact ⟨a :: as, .cons ha has, by rw [hresult, Array.toList_push, List.append_assoc]; rfl⟩

/-- Items with commas between them. -/
theorem Takes.commaSeparated {xs : List γ} (hne : xs ≠ [])
    (hitem : ∀ x ∈ xs, item.Takes (kindsOf x) (R x) F) (hcomma : F .comma) :
    (Reader.commaSeparated item).Takes (listedKinds (xs.map kindsOf) false)
      (List.Forall₂ R xs) fun k => F k ∧ k ≠ .comma := by
  have hloop := takes_iterate_itemStep hne hitem hcomma #[]
  refine Takes.last hloop (fun _ h => h) fun result hresult => ?_
  obtain ⟨as, has, hresult⟩ := hresult
  refine .pure ?_
  rw [hresult]
  exact has

theorem takes_paramStep_done {x : γ} {params : Array α}
    (hitem : item.Takes (kindsOf x) (R x) F) (hdots : ∀ k, (kindsOf x).headD k ≠ .ellipsis) :
    (paramStep item params).Takes (kindsOf x)
      (fun r => ∃ result, r = .done result ∧ ∃ a, R x a ∧ result = (params.push a, false))
      fun k => F k ∧ k ≠ .comma := by
  rw [paramStep]
  refine Takes.accept_false (fun k _ => hdots k) ?_
  refine Takes.last hitem (fun k hk => hk.1) fun a ha => ?_
  exact Takes.accept_false (fun k hk => hk.2) (.pure ⟨_, rfl, a, ha, rfl⟩)

theorem takes_paramStep_again {x : γ} {params : Array α}
    (hitem : item.Takes (kindsOf x) (R x) F) (hcomma : F .comma)
    (hdots : ∀ k, (kindsOf x).headD k ≠ .ellipsis) :
    (paramStep item params).Takes (kindsOf x ++ [.comma])
      (fun r => ∃ s, r = .again s ∧ ∃ a, R x a ∧ s = params.push a) fun _ => True := by
  rw [paramStep]
  refine Takes.accept_false (fun k _ => ?_) ?_
  · cases hk : kindsOf x with
    | nil => exact fun h => by cases h
    | cons k' ks =>
      have := hdots .comma
      rwa [hk] at this
  · refine Takes.bind hitem (fun _ _ => hcomma) fun a ha => ?_
    exact Takes.accept_true (.pure ⟨_, rfl, a, ha, rfl⟩)

/-- Parameters with commas between them, and three points if there may be more. -/
theorem takes_iterate_paramStep {xs : List γ} {vararg : Bool} (hne : xs ≠ [] ∨ vararg = true)
    (hitem : ∀ x ∈ xs, item.Takes (kindsOf x) (R x) F)
    (hdots : ∀ x ∈ xs, ∀ k, (kindsOf x).headD k ≠ .ellipsis) (hcomma : F .comma)
    (params : Array α) :
    (iterate (paramStep item) params).Takes (listedKinds (xs.map kindsOf) vararg)
      (fun result => ∃ as, List.Forall₂ R xs as
        ∧ result.1.toList = params.toList ++ as ∧ result.2 = vararg)
      fun k => F k ∧ k ≠ .comma := by
  induction xs generalizing params with
  | nil =>
    obtain rfl : vararg = true := hne.resolve_left fun h => h rfl
    refine Takes.iterate_done ?_
    rw [paramStep]
    exact Takes.accept_true (.pure ⟨_, rfl, [], .nil, (List.append_nil _).symm, rfl⟩)
  | cons x xs ih =>
    have hx := hitem x List.mem_cons_self
    have hxdots := hdots x List.mem_cons_self
    -- Three points make one more round, so the last parameter is in the last round only if there
    -- are none.
    by_cases hlast : xs = [] ∧ vararg = false
    · obtain ⟨rfl, rfl⟩ := hlast
      refine (Takes.iterate_done (takes_paramStep_done hx hxdots)).mono ?_ fun _ h => h
      rintro result ⟨a, ha, rfl⟩
      exact ⟨[a], .cons ha .nil, Array.toList_push, rfl⟩
    · have hmore : xs ≠ [] ∨ vararg = true := by
        rw [not_and_or, Bool.not_eq_false] at hlast
        exact hlast
      have hkinds : listedKinds ((x :: xs).map kindsOf) vararg
          = (kindsOf x ++ [.comma]) ++ listedKinds (xs.map kindsOf) vararg := by
        rw [List.append_assoc, List.singleton_append, List.map_cons]
        cases xs with
        | nil =>
          obtain rfl : vararg = true := hmore.resolve_left fun h => h rfl
          rfl
        | cons y xs => rw [List.map_cons, listedKinds_cons_cons]
      rw [hkinds]
      refine Takes.iterate_again (takes_paramStep_again hx hcomma hxdots) (by simp)
        (fun _ _ => trivial) fun s hs => ?_
      obtain ⟨a, ha, rfl⟩ := hs
      refine (ih hmore (fun z hz => hitem z (List.mem_cons_of_mem _ hz))
        (fun z hz => hdots z (List.mem_cons_of_mem _ hz)) _).mono ?_ fun _ h => h
      rintro result ⟨as, has, hresult, hvararg⟩
      refine ⟨a :: as, .cons ha has, ?_, hvararg⟩
      rw [hresult, Array.toList_push, List.append_assoc]
      rfl

/-- The first token of a list is the first of its first element. -/
theorem exists_listedKinds_cons (xs : List γ) (vararg : Bool) {x : γ} {k : TokenKind}
    {ks : List TokenKind} (h : kindsOf x = k :: ks) :
    ∃ rest, listedKinds ((x :: xs).map kindsOf) vararg = k :: rest := by
  cases xs with
  | nil => cases vararg <;> exact ⟨_, by rw [List.map_singleton, h]; rfl⟩
  | cons y ys => exact ⟨_, by rw [List.map_cons, List.map_cons, listedKinds_cons_cons, h]; rfl⟩

/-- Parameters in parentheses, and whether there may be more. -/
def paramList (item : Reader α) : Reader (List α × Bool) := do
  expect (.opener .round) "'('"
  if ← accept (.closer .round) then return ([], false)
  let (params, vararg) ← iterate (paramStep item) #[]
  expect (.closer .round) "')'"
  return (params.toList, vararg)

theorem takes_paramList {xs : List γ} (vararg : Bool)
    (hitem : ∀ x ∈ xs, item.Takes (kindsOf x) (R x) F)
    (hstart : ∀ x ∈ xs, ∃ k ks, kindsOf x = k :: ks ∧ k ≠ .ellipsis ∧ k ≠ .closer .round)
    (hcomma : F .comma) (hclose : F (.closer .round)) :
    (paramList item).Takes
      (.opener .round :: (listedKinds (xs.map kindsOf) vararg ++ [.closer .round]))
      (fun result => List.Forall₂ R xs result.1 ∧ result.2 = vararg) fun _ => True := by
  have hdots : ∀ x ∈ xs, ∀ k, (kindsOf x).headD k ≠ .ellipsis := by
    intro x hx k
    obtain ⟨k', ks, hks, hk', _⟩ := hstart x hx
    rw [hks]
    exact hk'
  rw [paramList]
  refine Takes.cons .expect fun _ _ => ?_
  -- An empty list is told by the closing parenthesis, which nothing else starts with.
  by_cases hnone : xs = [] ∧ vararg = false
  · obtain ⟨rfl, rfl⟩ := hnone
    exact Takes.accept_true (.pure ⟨.nil, rfl⟩)
  · have hne : xs ≠ [] ∨ vararg = true := by
      rw [not_and_or, Bool.not_eq_false] at hnone
      exact hnone
    refine Takes.accept_false (fun k _ => ?_) ?_
    · cases xs with
      | nil =>
        obtain rfl : vararg = true := hne.resolve_left fun h => h rfl
        simp [listedKinds]
      | cons x xs =>
        obtain ⟨k', ks, hks, _, hk'⟩ := hstart x List.mem_cons_self
        obtain ⟨rest, hrest⟩ := exists_listedKinds_cons xs vararg hks
        rw [hrest]
        exact hk'
    · refine Takes.bind (takes_iterate_paramStep hne hitem hdots hcomma #[])
        (fun _ _ => ⟨hclose, by simp⟩) ?_
      rintro ⟨params, vararg'⟩ ⟨as, has, hparams, rfl⟩
      refine Takes.cons .expect fun _ _ => .pure ⟨?_, rfl⟩
      rw [hparams]
      exact has

end Reader

namespace Ty

open Reader

/-- What does not continue a type. -/
def EndsType (k : TokenKind) : Prop :=
  k ≠ .star ∧ k ≠ .opener .round ∧ k ≠ .word "addrspace"

/-- The number of an address space. -/
theorem takes_space {space : Nat} (h : space < Text.bound32) :
    readSpace.Takes [.word "addrspace", .opener .round, .int (toString space), .closer .round]
      (· = space) fun _ => True := by
  rw [readSpace]
  refine Takes.cons .expect fun _ _ => Takes.cons .expect fun _ _ => ?_
  refine Takes.cons (.expectNumber (Text.decimal?_toString h)) fun n hn => ?_
  exact Takes.cons .expect fun _ _ => .pure hn

/-! ## Words -/

theorem keyword_ne_ptr (p : Primitive) : (p.keyword == "ptr") = false := by
  cases p <;> decide

/-- No keyword is the word of an integer type. -/
theorem ofKeyword?_int (bits : Nat) : Primitive.ofKeyword? ("i" ++ toString bits) = none := by
  rw [Primitive.ofKeyword?, List.find?_eq_none]
  intro p _ h
  have hhead : p.keyword.toList.head? ≠ some 'i' := by cases p <;> decide
  exact int_ne hhead (eq_of_beq h).symm

/-- The word of an integer type names its width. -/
theorem intWidth?_int {bits : Nat} (hpos : 0 < bits) (hbits : bits < Text.bound32) :
    intWidth? ("i" ++ toString bits) = some bits := by
  have htext : ("i" ++ toString bits).toList = 'i' :: (toString bits).toList := by
    rw [String.toList_append]
    rfl
  simp only [intWidth?, htext, Text.decimal?_toString hbits]
  cases bits with
  | zero => cases hpos
  | succ n => rfl

theorem takes_readWord_primitive (p : Primitive) :
    (readWord p.keyword).Takes [.word p.keyword] (· = primitive p) fun _ => True := by
  rw [readWord, keyword_ne_ptr, if_neg Bool.false_ne_true, Primitive.ofKeyword?_keyword]
  exact Takes.cons .advance fun _ _ => .pure rfl

theorem takes_readWord_int {bits : Nat} (hpos : 0 < bits) (hbits : bits < Text.bound32) :
    (readWord ("i" ++ toString bits)).Takes [.word ("i" ++ toString bits)] (· = int bits)
      fun _ => True := by
  rw [readWord, beq_eq_false_iff_ne.mpr (int_ne (by decide)), if_neg Bool.false_ne_true,
    ofKeyword?_int]
  dsimp only
  rw [intWidth?_int hpos hbits]
  exact Takes.cons .advance fun _ _ => .pure rfl

/-- An opaque pointer in address space 0 must not have another address space behind it. -/
theorem takes_readWord_bare {space : Nat} (h : space < Text.bound32) :
    (readWord "ptr").Takes (.word "ptr" :: spaceKinds space) (· = bare space)
      fun k => space = 0 → k ≠ .word "addrspace" := by
  rw [readWord, if_pos (by decide), spaceKinds]
  refine Takes.cons .advance fun _ _ => ?_
  -- Without a suffix of its own the pointer would take the one behind it.
  by_cases hs : space = 0
  · subst hs
    rw [if_pos rfl]
    refine .isAt fun k hk => ?_
    rw [List.headD_nil, beq_eq_false_iff_ne.mpr (hk rfl), if_neg Bool.false_ne_true]
    exact .pure rfl
  · rw [if_neg hs]
    refine .isAt fun k _ => ?_
    rw [List.headD_cons, beq_self_eq_true, if_pos rfl]
    exact (takes_space h).last (fun _ _ => trivial) fun n hn => .pure (by rw [hn])

/-! ## Nested types -/

/-- A list in brackets is at least as long as each of its elements. -/
theorem length_le_listedKinds {kss : List (List TokenKind)} {ks : List TokenKind} {vararg : Bool}
    (h : ks ∈ kss) : ks.length ≤ (listedKinds kss vararg).length := by
  induction kss with
  | nil => cases h
  | cons first rest ih =>
    cases rest with
    | nil =>
      obtain rfl := List.mem_singleton.mp h
      cases vararg <;> simp [listedKinds]
    | cons second rest =>
      rw [listedKinds_cons_cons, List.length_append, List.length_cons]
      rcases List.mem_cons.mp h with rfl | h
      · omega
      · have := ih h
        omega

/-- A type without suffixes. -/
def IsBase : Ty → Prop
  | function .. | pointer .. => False
  | _ => True

/-- Induction along the spine of a type: results and pointees are written in front of everything
else, so a type starts like the base that its spine leads to. -/
theorem spine_induction {p : Ty → Prop} (base : ∀ ty, IsBase ty → p ty)
    (function : ∀ ret params vararg, p ret → p (function ret params vararg))
    (pointer : ∀ pointee space, p pointee → p (pointer pointee space)) (ty : Ty) : p ty := by
  cases ty with
  | function ret params vararg =>
    exact function ret params vararg (spine_induction base function pointer ret)
  | pointer pointee space =>
    exact pointer pointee space (spine_induction base function pointer pointee)
  | primitive _ | int _ | bare _ | named _ | literal _ _ | array _ _ | vector _ _ _ =>
    exact base _ trivial

/-- The kinds of a type are not empty, and a type can start with the first. -/
theorem exists_kinds_cons (ty : Ty) (h : ty.prints = true) :
    ∃ k ks, ty.kinds = k :: ks ∧ startsType k = true := by
  -- Suffixes stand behind the type that they are put on, so the first token is that of the base.
  induction ty using spine_induction with
  | function ret params vararg ih =>
    rw [prints, Bool.and_eq_true] at h
    obtain ⟨k, ks, hks, hk⟩ := ih h.1
    exact ⟨k, _, by rw [kinds, hks]; rfl, hk⟩
  | pointer pointee space ih =>
    rw [prints, Bool.and_eq_true, Bool.and_eq_true] at h
    obtain ⟨k, ks, hks, hk⟩ := ih h.1.1
    exact ⟨k, _, by rw [kinds, hks]; rfl, hk⟩
  | base ty hbase =>
    cases ty with
    | function ret params vararg => cases hbase
    | pointer pointee space => cases hbase
    | primitive p =>
      refine ⟨_, _, rfl, ?_⟩
      rw [startsType, isTypeWord, Primitive.ofKeyword?_keyword]
      rfl
    | int bits =>
      rw [prints, Bool.and_eq_true, decide_eq_true_eq, decide_eq_true_eq] at h
      refine ⟨_, _, rfl, ?_⟩
      rw [startsType, isTypeWord, intWidth?_int h.1 h.2]
      simp
    | bare space => exact ⟨_, _, rfl, by decide⟩
    | named name => exact ⟨_, _, rfl, rfl⟩
    | literal fields packed =>
      cases packed with
      | false => exact ⟨_, _, rfl, rfl⟩
      | true => exact ⟨_, _, rfl, rfl⟩
    | array length elem => exact ⟨_, _, rfl, rfl⟩
    | vector scalable length elem => exact ⟨_, _, rfl, rfl⟩

/-- What a type can start with is no other kind of token. -/
theorem ne_of_startsType {k k' : TokenKind} (hk : startsType k = true)
    (hk' : startsType k' = false) : k ≠ k' := by
  rintro rfl
  rw [hk'] at hk
  cases hk

section

variable {item : Reader Ty} {n : Nat}

/-- Reads all types of at most `n` tokens that survive printing. -/
def ReadsTypes (item : Reader Ty) (n : Nat) : Prop :=
  ∀ ty : Ty, ty.prints = true → ty.kinds.length ≤ n → item.Takes ty.kinds (· = ty) EndsType

/-- Reads the types of a list, if there is room for the list. -/
theorem ReadsTypes.takes_of_mem (hitem : ReadsTypes item n) {tys : List Ty} {vararg : Bool}
    (hprints : allPrint tys = true) (hlength : (listedKinds (listKinds tys) vararg).length ≤ n) :
    ∀ ty ∈ tys, item.Takes ty.kinds (fun a => ty = a) EndsType := by
  intro ty hty
  have hmem : ty.kinds ∈ listKinds tys := by
    rw [listKinds_eq]
    exact List.mem_map_of_mem hty
  refine (hitem ty (prints_of_mem hprints ty hty) ?_).mono (fun a ha => ha.symm) fun _ h => h
  exact Nat.le_trans (length_le_listedKinds hmem) hlength

theorem eq_of_forall₂_eq {xs ys : List Ty} (h : List.Forall₂ (fun x y => x = y) xs ys) :
    xs = ys :=
  List.forall₂_eq_eq_eq ▸ h

theorem takes_readFields (hitem : ReadsTypes item n) {fields : List Ty}
    (hprints : allPrint fields = true)
    (hlength : (listedKinds (listKinds fields) false).length ≤ n) :
    (readFields item).Takes
      (.opener .curly :: (listedKinds (listKinds fields) false ++ [.closer .curly])) (· = fields)
      fun _ => True := by
  rw [readFields]
  refine Takes.cons .expect fun _ _ => ?_
  cases fields with
  | nil => exact Takes.accept_true (.pure rfl)
  | cons ty rest =>
    have htypes := hitem.takes_of_mem hprints hlength
    rw [listKinds_eq] at hlength ⊢
    refine Takes.accept_false (fun k _ => ?_) ?_
    · obtain ⟨k', ks, hks, hk'⟩ := exists_kinds_cons ty (prints_of_mem hprints ty (by simp))
      obtain ⟨more, hmore⟩ := exists_listedKinds_cons rest false hks
      rw [hmore]
      exact ne_of_startsType hk' rfl
    · refine Takes.bind (Takes.commaSeparated (by simp) htypes (by simp [EndsType]))
        (fun _ _ => ⟨by simp [EndsType], by simp⟩) fun fields' hfields => ?_
      exact Takes.cons .expect fun _ _ => .pure (eq_of_forall₂_eq hfields).symm

theorem takes_readParams (hitem : ReadsTypes item n) {params : List Ty} {vararg : Bool}
    (hprints : allPrint params = true)
    (hlength : (listedKinds (listKinds params) vararg).length ≤ n) :
    (readParams item).Takes
      (.opener .round :: (listedKinds (listKinds params) vararg ++ [.closer .round]))
      (· = (params, vararg)) fun _ => True := by
  have hstart : ∀ ty ∈ params, ∃ k ks, kinds ty = k :: ks ∧ k ≠ .ellipsis ∧ k ≠ .closer .round := by
    intro ty hty
    obtain ⟨k, ks, hks, hk⟩ := exists_kinds_cons ty (prints_of_mem hprints ty hty)
    exact ⟨k, ks, hks, ne_of_startsType hk rfl, ne_of_startsType hk rfl⟩
  have hlist := takes_paramList vararg (hitem.takes_of_mem hprints hlength) hstart
    (by simp [EndsType]) (by simp [EndsType])
  rw [listKinds_eq]
  refine hlist.mono ?_ fun _ h => h
  rintro ⟨params', vararg'⟩ ⟨has, rfl⟩
  rw [eq_of_forall₂_eq has]

/-- A length, the word `x` and an element type. -/
theorem takes_readLength {bound length : Nat} {what : String} (h : length < bound) :
    (readLength bound what).Takes [.int (toString length), .word "x"] (· = length)
      fun _ => True := by
  rw [readLength]
  refine Takes.cons (.expectNumber (Text.decimal?_toString h)) fun _ hn => ?_
  exact Takes.cons .expect fun _ _ => .pure hn

theorem takes_readArray (hitem : ReadsTypes item n) {length : Nat} {elem : Ty}
    (hbound : length < Text.bound64) (helem : elem.prints = true)
    (hlength : elem.kinds.length ≤ n) :
    (readArray item).Takes
      ([.int (toString length), .word "x"] ++ (elem.kinds ++ [.closer .square]))
      (· = array length elem) fun _ => True := by
  rw [readArray]
  refine Takes.bind (takes_readLength hbound) (fun _ _ => trivial) fun _ hn => ?_
  refine Takes.bind (hitem elem helem hlength) (fun _ _ => by simp [EndsType]) fun _ he => ?_
  exact Takes.cons .expect fun _ _ => .pure (by rw [hn, he])

theorem takes_readAngled_vector (hitem : ReadsTypes item n) (scalable : Bool) {length : Nat}
    {elem : Ty} (hbound : length < Text.bound32) (helem : elem.prints = true)
    (hlength : elem.kinds.length ≤ n) :
    (readAngled item).Takes ((if scalable then [.word "vscale", .word "x"] else [])
        ++ ([.int (toString length), .word "x"] ++ (elem.kinds ++ [.closer .angle])))
      (· = vector scalable length elem) fun _ => True := by
  -- Both sorts of vectors go on alike behind the word `vscale`.
  have htail : ∀ b, (do
      let length ← readLength Text.bound32 "a vector length"
      let elem ← item
      expect (.closer .angle) "'>'"
      return vector b length elem : Reader Ty).Takes
        ([.int (toString length), .word "x"] ++ (elem.kinds ++ [.closer .angle]))
        (· = vector b length elem) fun _ => True := by
    intro b
    refine Takes.bind (takes_readLength hbound) (fun _ _ => trivial) fun _ hn => ?_
    refine Takes.bind (hitem elem helem hlength) (fun _ _ => by simp [EndsType]) fun _ he => ?_
    exact Takes.cons .expect fun _ _ => .pure (by rw [hn, he])
  rw [readAngled]
  refine .isAt fun k _ => ?_
  cases scalable with
  | false => exact Takes.accept_false (fun k _ => by simp) (htail false)
  | true =>
    refine Takes.accept_true ?_
    exact Takes.cons .expect fun _ _ => htail true

theorem takes_readAngled_packed (hitem : ReadsTypes item n) {fields : List Ty}
    (hprints : allPrint fields = true)
    (hlength : (listedKinds (listKinds fields) false).length ≤ n) :
    (readAngled item).Takes
      ((.opener .curly :: (listedKinds (listKinds fields) false ++ [.closer .curly]))
        ++ [.closer .angle]) (· = literal fields true) fun _ => True := by
  rw [readAngled]
  refine .isAt fun k _ => ?_
  refine Takes.bind (takes_readFields hitem hprints hlength) (fun _ _ => trivial) fun _ hf => ?_
  exact Takes.cons .expect fun _ _ => .pure (by rw [hf])

/-- The name of a struct is the name that its reference stands for. -/
theorem structName_ofLabel {name : String} (h : nameStands name = true) :
    structName (.ofLabel name) = name := by
  rw [nameStands, Bool.or_eq_true] at h
  rw [Ident.ofLabel]
  cases hnumber : Text.decimal? Text.bound32 name.toList with
  | none => rfl
  | some number =>
    rcases h with h | h
    · rw [decimal?_of_isBare h] at hnumber
      cases hnumber
    · rw [hnumber] at h
      exact eq_of_beq h

/-! ## Suffixes -/

/-- The kinds of suffixes of a type are what `EndsType` excludes. -/
theorem takes_readSuffix_done (ty : Ty) :
    (readSuffix item ty).Takes [] (fun r => ∃ a, r = .done a ∧ a = ty) EndsType := by
  rw [readSuffix]
  refine .kind fun k hk => ?_
  rw [List.headD_nil]
  obtain ⟨hstar, hround, hspace⟩ := hk
  split
  · exact absurd rfl hstar
  · exact absurd rfl hspace
  · exact absurd rfl hround
  · exact .pure ⟨ty, rfl, rfl⟩

theorem takes_readSuffix_pointer (ty : Ty) {space : Nat} (h : space < Text.bound32) :
    (readSuffix item ty).Takes (spaceKinds space ++ [.star])
      (fun r => ∃ s, r = .again s ∧ s = pointer ty space) fun _ => True := by
  rw [readSuffix, spaceKinds]
  by_cases hs : space = 0
  · subst hs
    rw [if_pos rfl]
    refine .kind fun _ _ => ?_
    exact Takes.cons .advance fun _ _ => .pure ⟨_, rfl, rfl⟩
  · rw [if_neg hs]
    refine .kind fun _ _ => ?_
    refine Takes.bind (takes_space h) (fun _ _ => trivial) fun _ hn => ?_
    exact Takes.cons .expect fun _ _ => .pure ⟨_, rfl, by rw [hn]⟩

theorem takes_readSuffix_function (hitem : ReadsTypes item n) (ty : Ty) {params : List Ty}
    (vararg : Bool) (hprints : allPrint params = true)
    (hlength : (listedKinds (listKinds params) vararg).length ≤ n) :
    (readSuffix item ty).Takes
      (.opener .round :: (listedKinds (listKinds params) vararg ++ [.closer .round]))
      (fun r => ∃ s, r = .again s ∧ s = function ty params vararg) fun _ => True := by
  rw [readSuffix]
  refine .kind fun _ _ => ?_
  refine Takes.last (takes_readParams hitem hprints hlength) (fun _ _ => trivial) ?_
  rintro _ rfl
  exact .pure ⟨_, rfl, rfl⟩

/-! ## Whole types -/

theorem takes_readBase (hitem : ReadsTypes item n) (ty : Ty) (hbase : ty.IsBase)
    (hprints : ty.prints = true) (hlength : ty.kinds.length ≤ n + 1) :
    (readBase item).Takes ty.kinds (· = ty) fun k => ty = bare 0 → k ≠ .word "addrspace" := by
  cases ty with
  | function ret params vararg => cases hbase
  | pointer pointee space => cases hbase
  | primitive p =>
    rw [readBase]
    exact .kind fun _ _ => (takes_readWord_primitive p).mono (fun _ h => h) fun _ _ => trivial
  | int bits =>
    rw [prints, Bool.and_eq_true, decide_eq_true_eq, decide_eq_true_eq] at hprints
    rw [readBase]
    exact .kind fun _ _ =>
      (takes_readWord_int hprints.1 hprints.2).mono (fun _ h => h) fun _ _ => trivial
  | bare space =>
    rw [readBase]
    refine .kind fun _ _ => ?_
    refine (takes_readWord_bare (of_decide_eq_true hprints)).mono (fun _ h => h) fun k hk hs => ?_
    exact hk (by rw [hs])
  | named name =>
    rw [readBase]
    refine .kind fun _ _ => Takes.cons .advance fun _ _ => .pure ?_
    rw [structName_ofLabel hprints]
  | literal fields packed =>
    cases packed with
    | false =>
      -- `item` reads the types inside, and only those of at most `n` tokens: the brackets around them make
      -- the room.
      have hroom : (listedKinds (listKinds fields) false).length ≤ n := by
        simp only [kinds, Bool.false_eq_true, if_false, List.length_cons, List.length_append]
          at hlength
        omega
      have hfields := takes_readFields hitem hprints hroom
      rw [readBase]
      refine .kind fun _ _ => ?_
      exact Takes.last hfields (fun _ _ => trivial) fun _ hf => .pure (by rw [hf])
    | true =>
      have hroom : (listedKinds (listKinds fields) false).length ≤ n := by
        simp only [kinds, if_true, List.length_cons, List.length_append] at hlength
        omega
      have hpacked := takes_readAngled_packed hitem hprints hroom
      rw [readBase]
      refine .kind fun _ _ => Takes.cons .advance fun _ _ => ?_
      exact hpacked.mono (fun _ h => h) fun _ _ => trivial
  | array length elem =>
    rw [prints, Bool.and_eq_true, decide_eq_true_eq] at hprints
    have hroom : elem.kinds.length ≤ n := by
      simp only [kinds, List.length_cons, List.length_append] at hlength
      omega
    have harray := takes_readArray hitem hprints.1 hprints.2 hroom
    rw [readBase]
    refine .kind fun _ _ => Takes.cons .advance fun _ _ => ?_
    exact harray.mono (fun _ h => h) fun _ _ => trivial
  | vector scalable length elem =>
    rw [prints, Bool.and_eq_true, decide_eq_true_eq] at hprints
    have hroom : elem.kinds.length ≤ n := by
      simp only [kinds, List.length_cons, List.length_append] at hlength
      omega
    have hvector := takes_readAngled_vector hitem scalable hprints.1 hprints.2 hroom
    rw [readBase]
    refine .kind fun _ _ => Takes.cons .advance fun _ _ => ?_
    exact hvector.mono (fun _ h => h) fun _ _ => trivial

/-- A type in front of a loop over suffixes is the state that the loop goes on from. -/
theorem takes_spine (hitem : ReadsTypes item n) {P : Ty → Prop} {F : TokenKind → Prop} (ty : Ty)
    (hprints : ty.prints = true) (hlength : ty.kinds.length ≤ n + 1) (ks : List TokenKind)
    (hks : ∀ k, F k → ty = bare 0 → ks.headD k ≠ .word "addrspace")
    (hrest : (iterate (readSuffix item) ty).Takes ks P F) :
    (readBase item >>= iterate (readSuffix item)).Takes (ty.kinds ++ ks) P F := by
  induction ty using spine_induction generalizing ks with
  | function ret params vararg ih =>
    rw [prints, Bool.and_eq_true] at hprints
    rw [kinds, List.length_append, List.length_cons, List.length_append] at hlength
    have hsuffix := takes_readSuffix_function hitem ret vararg hprints.2 (by omega)
    rw [kinds, List.append_assoc]
    -- The result is in front, and the parameters are one more suffix behind it.
    refine ih hprints.1 (by omega) _ (fun _ _ _ => by simp) ?_
    exact Takes.iterate_again hsuffix (by simp) (fun _ _ => trivial) fun s hs => hs ▸ hrest
  | pointer pointee space ih =>
    rw [prints, Bool.and_eq_true, Bool.and_eq_true, decide_eq_true_eq] at hprints
    obtain ⟨⟨hpointee, hspace⟩, hplain⟩ := hprints
    rw [kinds, List.length_append] at hlength
    rw [kinds, List.append_assoc]
    refine ih hpointee (by omega) _ (fun k _ hbare => ?_) ?_
    · -- An address space behind the plain opaque pointer would be taken for its own, but such types
      -- do not survive printing.
      rw [Bool.or_eq_true, beq_iff_eq, bne_iff_ne] at hplain
      rw [hplain.resolve_right fun h => h hbare, spaceKinds, if_pos rfl]
      simp
    · exact Takes.iterate_again (takes_readSuffix_pointer pointee hspace) (by simp)
        (fun _ _ => trivial) fun s hs => hs ▸ hrest
  | base ty hbase =>
    exact (takes_readBase hitem ty hbase hprints hlength).bind hks fun _ h => h ▸ hrest

end

/-- A bound that is longer than a type has tokens is long enough to read the type. -/
theorem readsTypes_readWithin (bound : List Token) (n : Nat) (h : n < bound.length) :
    ReadsTypes (readWithin bound) n := by
  induction bound generalizing n with
  | nil => cases h
  | cons t bound ih =>
    intro ty hprints hlength
    obtain ⟨k, ks, hks, _⟩ := exists_kinds_cons ty hprints
    have hpos : 0 < n := by
      rw [hks, List.length_cons] at hlength
      omega
    rw [List.length_cons] at h
    -- A nested type is shorter by at least one token than the type around it.
    have hnested : ReadsTypes (readWithin bound) (n - 1) := ih (n - 1) (by omega)
    have hspine := takes_spine hnested ty hprints (by omega) [] (fun k hk _ => hk.2.2)
      (.iterate_done (takes_readSuffix_done ty))
    rwa [List.append_nil] at hspine

/-- **The tokens of a type that survives printing are read as this type.** -/
theorem takes_read {ty : Ty} (h : ty.prints = true) : read.Takes ty.kinds (· = ty) EndsType := by
  intro c ms hms hc hF
  -- The bound is the row of tokens ahead, and all tokens of the type are in it.
  have hlength : ty.kinds.length < c.bound.length := by
    have hremaining := hc.remaining
    rw [← hms, List.length_map, Cursor.bound, List.length_cons]
    rw [Cursor.remaining, Cursor.remaining] at hremaining
    omega
  exact readsTypes_readWithin c.bound _ hlength ty h (Nat.le_refl _) c ms hms hc hF

end Ty

end IrRecords

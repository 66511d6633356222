import IrRecords.Proofs.Reader.Settling

/-!
# How the readers of types end

A nested type stands behind a bracket, so the reader of a type goes into itself only where fewer
tokens are ahead. Each lemma on a reader that takes the reader of nested types as a parameter says
this: it asks of the parameter what it does on shorter rows of tokens, and nothing else. By induction
on the bound the reader gets to its end wherever the bound is longer than the row ahead.
-/

namespace IrRecords.Ty

open Reader

variable {S : Scene} {n : Nat} {item : Reader Ty}

theorem goes_readSpace : Goes S readSpace fun _ => True := by
  rw [readSpace]
  refine (goes_expectWord _).skip fun _ => (goes_expect _ _).skip fun _ => ?_
  exact (goes_expectNumber _ _).skip fun _ => (goes_expect _ _).skip fun _ => .pure trivial

theorem goesBelow_readFields (hitem : GoesBelow S n item fun _ => True) :
    GoesBelow S (n + 1) (readFields item) fun _ => True := by
  intro m hm
  rw [readFields]
  refine (settles_expect (by simp) _).bind fun _ m₁ h₁ => ?_
  -- Behind the brace fewer than `n` tokens are ahead.
  have hrest : GoesBelow S n (do
      if ← accept (.closer .curly) then return []
      let fields ← commaSeparated item
      expect (.closer .curly) "'\x7d'"
      return fields) fun _ => True := by
    refine (goes_accept _).below.skip fun none => ?_
    cases none with
    | true => exact .pure trivial
    | false =>
      refine (goesBelow_commaSeparated hitem).skip fun fields => ?_
      exact (goes_expect _ _).below.skip fun _ => .pure trivial
  exact (hrest m₁ (by omega)).mono fun _ _ h => ⟨by have := h.1; omega, h.2⟩

theorem settles_readParams (hitem : GoesBelow S n item fun _ => True) :
    Settles S n (readParams item) fun _ m => m < n :=
  (settles_paramList hitem).mono fun _ _ h => h.1

theorem goes_readLength (bound : Nat) (what : String) :
    Goes S (readLength bound what) fun _ => True := by
  rw [readLength]
  exact (goes_expectNumber _ _).skip fun _ => (goes_expectWord _).skip fun _ => .pure trivial

theorem goes_readWord (word : String) : Goes S (readWord word) fun _ => True := by
  rw [readWord]
  split
  · refine goes_advance.skip fun _ => (goes_isAt _).skip fun space => ?_
    cases space with
    | true => exact goes_readSpace.skip fun _ => .pure trivial
    | false => exact .pure trivial
  · split
    · exact goes_advance.skip fun _ => .pure trivial
    · split
      · exact goes_advance.skip fun _ => .pure trivial
      · exact .unexpected

theorem goesBelow_readArray (hitem : GoesBelow S n item fun _ => True) :
    GoesBelow S n (readArray item) fun _ => True := by
  rw [readArray]
  refine (goes_readLength _ _).below.skip fun _ => hitem.skip fun _ => ?_
  exact (goes_expect _ _).below.skip fun _ => .pure trivial

theorem goesBelow_readAngled (hitem : GoesBelow S n item fun _ => True) :
    GoesBelow S n (readAngled item) fun _ => True := by
  rw [readAngled]
  refine (goes_isAt _).below.skip fun packed => ?_
  split
  · have hfields : GoesBelow S n (readFields item) fun _ => True :=
      fun m hm => goesBelow_readFields hitem m (Nat.lt_succ_of_lt hm)
    exact hfields.skip fun _ => (goes_expect _ _).below.skip fun _ => .pure trivial
  · refine (goes_acceptWord _).below.skip fun scalable => ?_
    dsimp only
    split
    · refine (goes_expectWord _).below.skip fun _ => (goes_readLength _ _).below.skip fun _ => ?_
      exact hitem.skip fun _ => (goes_expect _ _).below.skip fun _ => .pure trivial
    · refine (goes_readLength _ _).below.skip fun _ => hitem.skip fun _ => ?_
      exact (goes_expect _ _).below.skip fun _ => .pure trivial

/-- The types inside a type are read behind a bracket, so with fewer tokens ahead. -/
theorem goesBelow_readBase (hitem : GoesBelow S n item fun _ => True) :
    GoesBelow S (n + 1) (readBase item) fun _ => True := by
  intro m hm
  rw [readBase]
  refine settles_kind.bind fun k m' h => ?_
  obtain ⟨rfl, hpos⟩ := h
  split
  · exact goes_readWord _ _
  · refine settles_advance.bind fun _ m₁ h₁ => ?_
    have := hpos (by simp)
    exact (goesBelow_readArray hitem m₁ (by omega)).mono fun _ _ h => ⟨by have := h.1; omega, h.2⟩
  · refine settles_advance.bind fun _ m₁ h₁ => ?_
    have := hpos (by simp)
    exact (goesBelow_readAngled hitem m₁ (by omega)).mono fun _ _ h => ⟨by have := h.1; omega, h.2⟩
  · exact (goesBelow_readFields hitem _ hm).bind fun _ _ h => .pure h
  · exact (goes_advance _).bind fun _ _ h => .pure h
  · exact .unexpected

/-- A suffix has a token at least, and the types inside it are read with fewer tokens ahead. -/
theorem settles_readSuffix (hitem : GoesBelow S n item fun _ => True) (ty : Ty) :
    Settles S n (readSuffix item ty) (RoundWithin n (fun _ => True) fun _ => True) := by
  rw [readSuffix]
  refine settles_kind.bind fun k m h => ?_
  obtain ⟨rfl, hpos⟩ := h
  split
  · have := hpos (by simp)
    exact settles_advance.bind fun _ m₁ h₁ => .pure ⟨by omega, trivial⟩
  · refine (goes_readSpace _).bind fun _ m₁ h₁ => (settles_expect (by simp) _).bind fun _ m₂ h₂ => ?_
    exact .pure ⟨Nat.lt_of_lt_of_le h₂ h₁.1, trivial⟩
  · exact (settles_readParams hitem).bind fun _ m₁ h₁ => .pure ⟨h₁, trivial⟩
  · exact .pure ⟨Nat.le_refl _, trivial⟩

/-- A type: its base and its suffixes, where `item` reads the types inside it. -/
def readWith (item : Reader Ty) : Reader Ty := do
  let base ← readBase item
  iterate (readSuffix item) base

theorem readWithin_cons (t : Token) (bound : List Token) :
    readWithin (t :: bound) = readWith (readWithin bound) := rfl

theorem goesBelow_readWith (hitem : GoesBelow S n item fun _ => True) :
    GoesBelow S (n + 1) (readWith item) fun _ => True := by
  rw [readWith]
  refine (goesBelow_readBase hitem).skip fun base m hm => ?_
  exact .iterate (fun k hk ty _ => settles_readSuffix (fun j hj => hitem j (by omega)) ty)
    (I := fun _ => True) trivial

/-- **A bound that is longer than the row of tokens ahead is long enough for any type.** -/
theorem goesBelow_readWithin (bound : List Token) :
    GoesBelow S bound.length (readWithin bound) fun _ => True := by
  induction bound with
  | nil => exact fun m hm => absurd hm (Nat.not_lt_zero m)
  | cons t bound ih =>
    rw [readWithin_cons, List.length_cons]
    exact goesBelow_readWith ih

theorem goes_read : Goes S read fun _ => True :=
  fun _ c hc hn => goesBelow_readWithin c.bound _ (hn ▸ Nat.lt_succ_self _) c hc hn

/-! ## The recursion of types -/

section Recursion

variable {item' : Reader Ty} {c : Cursor}

theorem follows_commaSeparated (h : Follows item item') :
    Follows (commaSeparated item) (commaSeparated item') := by
  rw [commaSeparated, commaSeparated]
  refine Follows.bind (.iterate (fun items => h.bind fun _ => .refl _) _) fun _ => .refl _

theorem follows_readFields (h : Follows item item') :
    Follows (readFields item) (readFields item') := by
  rw [readFields, readFields]
  refine Follows.bind (.refl _) fun _ => Follows.bind (.refl _) fun none => ?_
  split
  · exact .refl _
  · exact (follows_commaSeparated h).bind fun _ => .refl _

theorem follows_readParams (h : Follows item item') :
    Follows (readParams item) (readParams item') := by
  rw [readParams, readParams]
  refine Follows.bind (.refl _) fun _ => Follows.bind (.refl _) fun none => ?_
  split
  · exact .refl _
  · refine Follows.bind (.iterate (fun params => Follows.bind (.refl _) fun dots => ?_) _)
      fun _ => .refl _
    split
    · exact .refl _
    · exact h.bind fun _ => .refl _

theorem follows_readArray (h : Follows item item') :
    Follows (readArray item) (readArray item') := by
  rw [readArray, readArray]
  exact Follows.bind (.refl _) fun _ => h.bind fun _ => .refl _

theorem follows_readAngled (h : Follows item item') :
    Follows (readAngled item) (readAngled item') := by
  rw [readAngled, readAngled]
  refine Follows.bind (.refl _) fun packed => ?_
  split
  · exact (follows_readFields h).bind fun _ => .refl _
  · refine Follows.bind (.refl _) fun scalable => ?_
    dsimp only
    split
    · exact Follows.bind (.refl _) fun _ => Follows.bind (.refl _) fun _ => h.bind fun _ => .refl _
    · exact Follows.bind (.refl _) fun _ => h.bind fun _ => .refl _

theorem follows_readBase (h : Follows item item') :
    Follows (readBase item) (readBase item') := by
  rw [readBase, readBase]
  refine Follows.bind (.refl _) fun k => ?_
  split
  · exact .refl _
  · exact Follows.bind (.refl _) fun _ => follows_readArray h
  · exact Follows.bind (.refl _) fun _ => follows_readAngled h
  · exact (follows_readFields h).bind fun _ => .refl _
  · exact .refl _
  · exact .refl _

theorem follows_readSuffix (h : Follows item item') (ty : Ty) :
    Follows (readSuffix item ty) (readSuffix item' ty) := by
  rw [readSuffix, readSuffix]
  refine Follows.bind (.refl _) fun k => ?_
  split
  · exact .refl _
  · exact .refl _
  · exact (follows_readParams h).bind fun _ => .refl _
  · exact .refl _

theorem follows_readWith (h : Follows item item') : Follows (readWith item) (readWith item') :=
  (follows_readBase h).bind fun base => .iterate (fun ty => follows_readSuffix h ty) base

/-- A longer bound changes nothing but where the reader stalls. -/
theorem follows_readWithin {bound bound' : List Token} (h : bound.length ≤ bound'.length) :
    Follows (readWithin bound) (readWithin bound') := by
  induction bound generalizing bound' with
  | nil => exact fun c => .inr ⟨c.current.start, rfl⟩
  | cons t bound ih =>
    obtain ⟨t', bound', rfl⟩ : ∃ t' bound'', bound' = t' :: bound'' :=
      List.exists_cons_of_length_pos (Nat.lt_of_lt_of_le (Nat.succ_pos _) h)
    rw [readWithin_cons, readWithin_cons]
    exact follows_readWith (ih (Nat.le_of_succ_le_succ h))

/-- All bounds that are longer than the row of tokens ahead are as good as any other. -/
theorem readWithin_eq_read {bound : List Token} (hstop : c.stop.kind = .eof)
    (h : c.remaining < bound.length) : readWithin bound c = read c := by
  have hlength : c.bound.length ≤ bound.length := h
  have hsettles := goesBelow_readWithin (S := .around c hstop) c.bound c.remaining
    (Nat.lt_succ_self _)
  exact (hsettles.eq_of_follows (follows_readWithin hlength) (Scene.holds_around c hstop) rfl).symm

/-- **The reader of types goes into itself only further on in the text.** A type is a base and
suffixes, and the types inside these are read by the same reader behind a token at least. -/
theorem read_eq (hstop : c.stop.kind = .eof) : read c = readWith (beyond c read) c := by
  have hfollows : Follows (beyond c read) (readWithin c.rest) := by
    intro later
    rw [beyond]
    split
    · next h =>
      have heof : later.stop.kind = .eof := by rw [h.2.2, hstop]
      exact .inl (readWithin_eq_read heof h.2.1).symm
    · exact .inr ⟨_, rfl⟩
  have hitem : GoesBelow (.around c hstop) c.remaining (beyond c read) fun _ => True :=
    GoesBelow.beyond goes_read.below
  have hsettles := goesBelow_readWith hitem c.remaining (Nat.lt_succ_self _)
  exact (hsettles.eq_of_follows (follows_readWith hfollows) (Scene.holds_around c hstop) rfl).symm

end Recursion

end IrRecords.Ty

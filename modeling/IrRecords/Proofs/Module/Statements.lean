import IrRecords.Proofs.Function.Contents
import IrRecords.Proofs.Module.Parts

/-!
# No statement is lost but on lines that are passed over

A body is read part by part, and the parts are all of the body. So whatever in it looks like the
start of a block or of a statement, a label or a result with its equals sign, either is one or
belongs to something else: it stands inside of brackets, or on a line of which the rest is passed
over. `statements_of_read` says that there is nothing else, and where the lines are: a line that
starts with a hash sign, and what is left of the line on which an instruction ends. The second is
meant for alignment and metadata, but nothing is checked, and a second statement on the line of the
first one is passed over like them.
-/

namespace IrRecords.Module

open Cursor (bracketsAfter)

/-- What stands outside of all brackets between the braces and is not passed over is there in the
function: a label is a block, and a result in front of an equals sign the result of an
instruction. -/
structure Definition.KeepsStatements (D : Definition) : Prop where
  labels : ∀ before t after text, D.body = before ++ t :: after →
    before.foldl bracketsAfter [] = [] → t.kind = .label text →
    D.function.HasBlock (.ofLabel text) ∨ D.PassesOver t
  results : ∀ before t e after id, D.body = before ++ t :: e :: after →
    before.foldl bracketsAfter [] = [] → t.kind = .localRef id → e.kind = .equal →
    D.function.HasResult id ∨ D.PassesOver e

/-- **Nothing else is lost of a body that is read.** -/
theorem statements_of_read {source : String} {m : Module}
    (h : (Module.read source).result = .ok m) :
    ∃ parts, FallsInto source m parts ∧ ∀ D, .definition D ∈ parts → D.KeepsStatements := by
  obtain ⟨parts, hparts⟩ := exists_parts_of_read h
  refine ⟨parts, hparts, fun D hD => ?_⟩
  cases hparts.valid _ hD with
  | definition hvalid =>
    obtain ⟨header, d, d', _, hheader, hadds, hfinish⟩ := hvalid.body
    obtain ⟨⟨blocks, hblocks, hlabels⟩, statements, hstatements, htold⟩ := hadds.contents
    have hlaid := Draft.finish_spec hfinish
    refine ⟨fun before t after text hrow hout ht => ?_,
      fun before t e after id hrow hout ht he => ?_⟩
    · refine (hadds.label_of_outside hrow hout ht).imp_left fun hlabel => hlaid.hasBlock ?_
      rw [hblocks]
      exact List.mem_append_right _ (hlabels t text hlabel ht)
    · refine (hadds.result_of_outside hrow hout ht he).imp_left fun ⟨s, hs, hresult⟩ => ?_
      -- The statement that is written is a statement of the draft, with the result that it gives.
      have hs' : s ∈ D.parts.filterMap BodyPart.statement? := List.mem_filterMap.mpr ⟨_, hs, rfl⟩
      obtain ⟨st, hst, hsaid⟩ := exists_right_of_forall₂ htold hs'
      refine hlaid.hasResult ?_ (hsaid.result id hresult)
      rw [hstatements]
      exact List.mem_append_right _ hst

/-- Two statements on one line, with a label in front of them. -/
def crowdedSource : String :=
  "define i32 @f() \x7b
entry:  %a = add i32 1, 2  %b = add i32 3, 4
  ret i32 %a
\x7d
"

/-- The function that is read from `crowdedSource` has two of the three instructions, and what is
missing is passed over. -/
theorem statements_of_read_crowded : ∃ m parts, (Module.read crowdedSource).result = .ok m
    ∧ m.functions.map (·.instrs.size) = [2] ∧ FallsInto crowdedSource m parts
    ∧ ∀ D, .definition D ∈ parts → D.KeepsStatements := by
  have hread : ((Module.read crowdedSource).result.toOption.map
      fun m => m.functions.map (·.instrs.size)) = some [2] := by decide +kernel
  cases hm : (Module.read crowdedSource).result with
  | error e => rw [hm] at hread; cases hread
  | ok m =>
    rw [hm, Except.toOption, Option.map_some, Option.some.injEq] at hread
    obtain ⟨parts, hparts, hkeeps⟩ := statements_of_read hm
    exact ⟨m, parts, rfl, hread, hparts, hkeeps⟩

end IrRecords.Module

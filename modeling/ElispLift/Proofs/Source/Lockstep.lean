import ElispLift.Blocks.Annotation
import ElispLift.Proofs.Idioms.Shape
import ElispLift.Proofs.Source.Termination

/-!
# The grammar and the renderer in lockstep

Whatever the grammar puts together has a rendering in which nothing is missing, and so it has with
idioms in place of their expansions.
-/

namespace ElispLift

namespace Node

/-- A tree with its shape is rendered, and nothing is missing, if its loops start with values that
do not read the stack. -/
theorem exists_render {tree : Node} (hshaped : tree.Shaped) (hloops : tree.LoopsStartQuiet)
    (hrendered : tree.role.isRendered = true) (indent : String) :
    ∃ source, tree.render indent = .ok source ∧ ∀ i ∈ source.issues, i.isGap = false := by
  obtain ⟨page, -, hrender, hpage⟩ :=
    tree.exists_page hloops (fun _ : True => ⟨hshaped, hrendered⟩) indent
  exact ⟨_, hrender, hpage.noGap trivial⟩

end Node

/-- Every parsed tree is rendered, as it is and with idioms in place of their expansions, and
rendering never asks for a child or a form that is not there. The start values of its loops must not
read the stack. -/
theorem exists_render_of_parse {tokens : List Instruction} {tree : Node}
    (hparse : parse .fnBody (Grammar.arityRules tokens) tokens = .ok tree)
    (hloops : tree.LoopsStartQuiet) (indent : String) :
    (∃ source, tree.render indent = .ok source ∧ ∀ i ∈ source.issues, i.isGap = false) ∧
      ∃ source, tree.idiomatic.render indent = .ok source ∧
        ∀ i ∈ source.issues, i.isGap = false := by
  obtain ⟨hshaped, hrole⟩ := shaped_of_parse hparse
  have hrendered : tree.role.isRendered = true := by
    rw [hrole]
    rfl
  obtain ⟨hsound, hsame⟩ := tree.keepsSound False ⟨hshaped, hloops, nofun⟩
  exact ⟨tree.exists_render hshaped hloops hrendered indent,
    tree.idiomatic.exists_render hsound.shaped hsound.loops (hsame ▸ hrendered) indent⟩

/-- A variable is set, and then `b` is evaluated as long as `a` holds. -/
def setAndWait : List Instruction :=
  [.ofOpcode .constant (some (.int 0)) 0, .ofOpcode .varset (some (.symbol "i")) 1,
    .ofOpcode .label (some (.symbol "1")) 2, .ofOpcode .varref (some (.symbol "a")) 2,
    .ofOpcode .gotoIfNilElsePop (some (.symbol "2")) 3, .ofOpcode .varref (some (.symbol "b")) 4,
    .ofOpcode .discard none 5, .ofOpcode .goto (some (.symbol "1")) 6,
    .ofOpcode .label (some (.symbol "2")) 7, .ofOpcode .ret none 7]

/-- The assignment becomes the start value of the loop. -/
theorem exists_parse_setAndWait : ∃ s tree, Segmentation.ofInstructions setAndWait = .ok s ∧
    parse .fnBody (Grammar.arityRules s.annotated) s.annotated = .ok tree ∧
    tree.LoopsStartQuiet ∧
    ∃ source, tree.render "" = .ok source ∧ source.text = "(while a\n  b)" := by
  have hparsed : (Segmentation.ofInstructions setAndWait).toOption.any (fun s =>
      (parse .fnBody (Grammar.arityRules s.annotated) s.annotated).toOption.any fun tree =>
        tree.subnodes.all Node.startsQuiet &&
          (tree.render "").toOption.any (·.text = "(while a\n  b)")) = true := by
    decide +kernel
  obtain ⟨s, hs, hparsed⟩ := exists_ok_of_any hparsed
  obtain ⟨tree, hparse, htree⟩ := exists_ok_of_any hparsed
  obtain ⟨hloops, hrender⟩ := Bool.and_eq_true_iff.1 htree
  obtain ⟨source, hsource, htext⟩ := exists_ok_of_any hrender
  exact ⟨s, tree, hs, hparse, List.all_eq_true.1 hloops, source, hsource, of_decide_eq_true htext⟩

theorem exists_render_of_parse_setAndWait : ∃ s tree,
    Segmentation.ofInstructions setAndWait = .ok s ∧
    parse .fnBody (Grammar.arityRules s.annotated) s.annotated = .ok tree ∧
    tree.LoopsStartQuiet ∧
    (∃ source, tree.render "" = .ok source ∧ ∀ i ∈ source.issues, i.isGap = false) ∧
    ∃ source, tree.idiomatic.render "" = .ok source ∧ ∀ i ∈ source.issues, i.isGap = false := by
  obtain ⟨s, tree, hs, hparse, hloops, -⟩ := exists_parse_setAndWait
  exact ⟨s, tree, hs, hparse, hloops, exists_render_of_parse hparse hloops ""⟩

end ElispLift

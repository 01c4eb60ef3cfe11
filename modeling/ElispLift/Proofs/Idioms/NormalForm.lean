import ElispLift.Proofs.Idioms.Parts

/-!
# Normal forms

A tree is normal if no idiom is recognised anywhere in it. Recognising idioms once makes every tree
normal: a form that takes the place of a node is no start of another idiom, and what it holds are
parts of the node that were normal before. A normal tree stays as it is.
-/

namespace ElispLift

namespace Node

/-- The form that takes the place of a node, if it has the shape of one. -/
def rewrite? : Node → Option Node
  | token _ => none
  | tree kind children _ => Idiom.recognize? kind children

/-- No node of the tree has the shape of an idiom. -/
def Normal (node : Node) : Prop := ∀ m ∈ node.subnodes, m.rewrite? = none

theorem normal_tree {kind : Nonterminal} {children : List Node} {idiom : Option Idiom} :
    (tree kind children idiom).Normal ↔
      Idiom.recognize? kind children = none ∧ ∀ c ∈ children, c.Normal := forall_subnodes_tree

end Node

namespace Idiom

open Node

variable {kind : Nonterminal} {children : List Node} {node : Node}

/-- The nodes that idioms put into their forms have not the shape of an idiom. -/
theorem allows_normal : Allows fun m => m.rewrite? = none where
  token _ := rfl
  inner kind hkind _ := by
    simp only [innerKinds, List.mem_cons, List.not_mem_nil, or_false] at hkind
    rcases hkind with rfl | rfl | rfl | rfl | rfl | rfl | rfl <;> rfl
  branch _ _ _ := rfl

theorem not_operatorIs_combined {kind : Nonterminal} {outer inner : Bool} {offset : Nat}
    {op : Opcode} (ho : op = .not ∨ op = .car ∨ op = .cdr) :
    (operator kind (combined outer inner) offset).operatorIs op = false := by
  rcases ho with rfl | rfl | rfl <;> cases outer <;> cases inner <;> rfl

theorem recognize?_associative {opcode : Opcode} {family : Family}
    (h : (opcode, family) ∈ associative) (cs : List Node) :
    recognize? (.counted family) cs = none := by
  simp only [associative, List.mem_cons, Prod.mk.injEq, List.not_mem_nil, or_false] at h
  rcases h with ⟨-, rfl⟩ | ⟨-, rfl⟩ | ⟨-, rfl⟩ <;> rfl

theorem definitionKind?_eq {head : List Char} {hasDoc : Bool} {kind : Nonterminal}
    (h : definitionKind? head hasDoc = some kind) :
    kind = (if hasDoc then .defvarDoc else .defvar) ∨
      kind = if hasDoc then .defconstDoc else .defconst := by
  unfold definitionKind? at h
  split at h
  · exact .inl (Option.some.inj h).symm
  · split at h
    · exact .inr (Option.some.inj h).symm
    · cases h

/-- The form of a definition says whether there is documentation. -/
theorem definition?_kind {d : Definition} {text : String} (h : definition? text = some d) :
    d.kind = (if d.doc.isSome then .defvarDoc else .defvar) ∨
      d.kind = if d.doc.isSome then .defconstDoc else .defconst := by
  simp only [definition?, Option.bind_eq_bind, Option.bind_eq_some_iff] at h
  obtain ⟨tail, -, inner, -, ⟨head, rest⟩, -, ⟨name, rest'⟩, -, doc, -, h⟩ := h
  split at h
  · obtain ⟨kind, hkind, h⟩ := Option.bind_eq_some_iff.1 h
    cases h
    exact definitionKind?_eq hkind
  split at h
  · obtain ⟨kind, hkind, h⟩ := Option.bind_eq_some_iff.1 h
    cases h
    exact definitionKind?_eq hkind
  · cases h

theorem recognize?_definition {d : Definition} {text : String} (h : definition? text = some d)
    (cs : List Node) : recognize? d.kind cs = none := by
  rcases definition?_kind h with hk | hk <;> rw [hk] <;> split <;> rfl

/-- A key in words is no constant, so it is not put into words again. -/
theorem recognize?_kbd {place : Nat} {callee : String} {i : Instruction}
    (hp : keyPlace? callee children.length = some place)
    (hc : (children.head?.bind Node.constant?).bind Instruction.operandText? = some callee) :
    recognize? (.counted .call) (children.set place (plain .expr [plain .kbd [.token i]])) =
      none := by
  have hplace : place = 1 ∧ children.length = 4 ∨ place = 2 ∧ children.length = 5 := by
    unfold keyPlace? at hp
    split at hp
    · cases hp
      omega
    · split at hp
      · cases hp
        omega
      · cases hp
  obtain ⟨first, rest, rfl⟩ : ∃ first rest, children = first :: rest := by
    cases children with
    | nil => simp at hplace
    | cons first rest => exact ⟨first, rest, rfl⟩
  simp only [List.head?_cons, Option.bind_some, Option.bind_eq_some_iff] at hc
  obtain ⟨f, hf, hc⟩ := hc
  obtain ⟨m, rfl⟩ : ∃ m, place = m + 1 := ⟨place - 1, by omega⟩
  have hdef : defvar? ((first :: rest).set (m + 1) (plain .expr [plain .kbd [.token i]])) =
      none := by
    unfold defvar?
    split
    next h =>
      have := congrArg List.length h
      simp at this hplace
      omega
    · rfl
  have hkey : (rest.set m (plain .expr [plain .kbd [.token i]]))[m]? =
      some (plain .expr [plain .kbd [.token i]]) := by
    refine List.getElem?_set_self ?_
    simp at hplace
    omega
  simp only [List.length_cons] at hp
  simp only [recognize?, hdef, Option.none_or]
  simp only [kbd?, List.set_cons_succ, List.head?_cons, List.length_cons, List.length_set,
    List.getElem?_cons_succ, hkey, hf, hc, hp, Option.bind_eq_bind, Option.bind_some]
  rfl

/-- A form that takes the place of a node has not the shape of an idiom itself. -/
theorem Makes.rewrite?_eq_none (h : Makes kind children node) : node.rewrite? = none := by
  cases h with
  | notEqual =>
    -- the new operation is none of those whose applications are gathered
    simp [made, rewrite?, recognize?, flatten?, associative, operatorIs, operator?, operator,
      child?, Node.children, plain, token?, Instruction.isOp, Instruction.ofOpcode]
  | cxr =>
    simp [made, rewrite?, recognize?, notEqual?, cxr?, takesHead?, not_operatorIs_combined]
  | flatten hmem => exact recognize?_associative hmem _
  | defvar _ _ hd => exact recognize?_definition hd _
  | kbd hfirst hfunction hcallee hplace =>
    exact recognize?_kbd hplace (by simp [hfirst, hfunction, hcallee])
  | andStatement =>
    simp [made, rewrite?, recognize?, andStatement?, plain, Node.unwrap]
  | whenToIf | withCurrentBuffer | withTempBuffer | dolist => rfl

/-- A form that takes the place of a node with normal children is normal. -/
theorem recognize?_normal (hs : ∀ c ∈ children, c.Normal)
    (h : recognize? kind children = some node) : node.Normal :=
  have hmakes := makes_of_recognize? h
  hmakes.all allows_normal hs hmakes.rewrite?_eq_none

end Idiom

namespace Node

mutual

theorem normal_idiomatic : ∀ node : Node, node.idiomatic.Normal
  | token i => all_token rfl
  | tree kind children idiom => by
    have hs := normal_idiomaticAll children
    rw [idiomatic]
    cases h : Idiom.recognize? kind (idiomaticAll children) with
    | none => exact normal_tree.2 ⟨h, hs⟩
    | some found => exact Idiom.recognize?_normal hs h

theorem normal_idiomaticAll : ∀ nodes : List Node, ∀ n ∈ idiomaticAll nodes, n.Normal
  | [] => by simp [idiomaticAll]
  | node :: rest => by
    simpa [idiomaticAll] using ⟨normal_idiomatic node, normal_idiomaticAll rest⟩

end

mutual

theorem idiomatic_of_normal : ∀ node : Node, node.Normal → node.idiomatic = node
  | token _, _ => rfl
  | tree kind children idiom, h => by
    obtain ⟨hk, hs⟩ := normal_tree.1 h
    rw [idiomatic, idiomaticAll_of_normal children hs, hk]
    rfl

theorem idiomaticAll_of_normal :
    ∀ nodes : List Node, (∀ n ∈ nodes, n.Normal) → idiomaticAll nodes = nodes
  | [], _ => rfl
  | node :: rest, h => by
    rw [idiomaticAll, idiomatic_of_normal node (h node (by simp)),
      idiomaticAll_of_normal rest fun n hn => h n (by simp [hn])]

end

/-- One pass over any tree leaves no node that has the shape of an idiom, so that a second pass
changes nothing. -/
theorem idiomatic_normal_and_stable (tree : Node) :
    (∀ m ∈ tree.idiomatic.subnodes, m.rewrite? = none) ∧
      tree.idiomatic.idiomatic = tree.idiomatic :=
  ⟨normal_idiomatic tree, idiomatic_of_normal _ (normal_idiomatic tree)⟩

end Node

end ElispLift

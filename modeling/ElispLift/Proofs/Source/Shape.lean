import ElispLift.Proofs.Extraction.Parse
import ElispLift.Proofs.Idioms.NormalForm
import ElispLift.Source.Form

/-!
# Shapes of trees

Rendering a node looks up children by number, and sometimes children of children. `fits` says for a
kind which children must be there for that, and what must be known of them. Every node of a parsed
tree fits, because every rule of the grammar does.
-/

namespace ElispLift

/-- What the node above knows of a node: that it is an instruction, or that it is rendered by
itself, or its kind if the node above reads its children. -/
inductive Role where
  | instruction
  | part
  | known (kind : Nonterminal)
deriving DecidableEq, Repr

namespace Nonterminal

/-- Kinds that no idiom changes, and whose children are read from above. -/
def isKnown : Nonterminal → Bool
  | body | exprs | optExprs | exprStmt | dolistList | varlist | labeledClauses | varlistStacked
  | varlistStackedInner | dolistInitVar | dolistLoopIterSet | dolistLoopIterSetStacking => true
  | _ => false

/-- Whether nodes of the kind have a rendering. Those of the other kinds are only read from
above. -/
def isRendered : Nonterminal → Bool
  | varlist | labeledClauses | varlistStacked | varlistStackedInner | dolistInitVar
  | dolistLoopIterSet | dolistLoopIterSetStacking => false
  | _ => true

def role (kind : Nonterminal) : Role := if kind.isKnown then .known kind else .part

end Nonterminal

namespace Role

def isRendered : Role → Bool
  | instruction | part => true
  | known kind => kind.isRendered

@[simp] theorem isRendered_instruction : instruction.isRendered = true := rfl

@[simp] theorem isRendered_known (kind : Nonterminal) :
    (known kind).isRendered = kind.isRendered := rfl

def isTree : Role → Bool
  | instruction => false
  | part | known _ => true

end Role

def Symbol.role : Symbol → Role
  | terminal _ | word _ => .instruction
  | nonterminal kind => kind.role

/-- Whether there are the children that a directive asks for. -/
def Directive.fits (roles : List Role) : Directive → Bool
  | child n | unquoted n | push n => roles[n]?.any Role.isRendered
  | operand n => roles[n]?.isSome
  | _ => true

namespace Nonterminal

/-- Whether there are the children that the template of a kind asks for. -/
def fitsTemplate (kind : Nonterminal) (roles : List Role) : Bool :=
  (kind.template?.getD []).all (Directive.fits roles)

/-- Whether a node with children of these roles has all that is read when it is rendered, or when an
idiom is recognised in it. -/
def fits (kind : Nonterminal) (roles : List Role) : Bool :=
  match kind with
  | exprs | optExprs => roles.all (· = .known exprStmt)
  | body => roles = [.known exprs]
  | fnBody => roles.all Role.isRendered && roles[0]?.any (· = .known body)
  | bodyStacked => roles.all Role.isRendered && roles[2]?.all (· = .known exprs)
  | exprStmt | varbind => roles[0]?.any Role.isRendered
  | expr | exprStacked | nameExpr | nullaryOp | unaryOp | binaryOp | ternaryOp | labeledClauses
  | varlist => roles.all Role.isRendered
  | condition | dolistList | unaryExpr | unaryExprStacked | binaryExpr | ternaryExpr =>
    roles.all Role.isRendered && !roles.isEmpty
  | binaryExprStacked => roles.all Role.isRendered && roles.dropLast.any Role.isTree
  | counted .call => roles.all Role.isRendered && roles.any Role.isTree
  | counted _ => roles.all Role.isRendered
  | ifElseForm =>
    roles[0]?.any Role.isRendered && roles[2]?.any Role.isRendered && roles[6]?.any Role.isRendered
  | labeledClause => roles[1]?.any Role.isRendered
  | clause => roles[0]?.isSome && roles[1]?.any Role.isRendered
  | labeledFinalClause => roles[1]?.isSome && roles[2]?.any Role.isRendered
  | letFormStar => roles[0]?.any (· = .known varlist) && roles[1]?.any (· = .known body)
  | letFormStacked => roles[0]?.any (· = .known varlistStacked) && roles[1]?.any Role.isRendered
  | varlistStacked =>
    roles[0]?.any Role.isRendered && roles[1]?.any (· = .known varlistStackedInner)
  | varlistStackedInner =>
    roles.isEmpty ||
      roles[0]?.any Role.isRendered && roles[1]?.any (· = .known varlistStackedInner)
  | dolistMacro =>
    roles[0]?.any (· = .known dolistList) && roles[6]?.any Role.isRendered &&
      (roles[5]? != some (.known dolistLoopIterSet) || roles[6]? == some (.known body))
  | dolistMacroResult =>
    roles[0]?.any (· = .known dolistList) && roles[6]?.any Role.isRendered &&
      roles[16]?.any Role.isRendered
  | whenMacro => fitsTemplate kind roles && roles[2]?.any (· = .known body)
  | saveCurrentBufferForm => fitsTemplate kind roles && roles[1]?.any (· = .known body)
  | withCurrentBufferMacro => fitsTemplate kind roles && roles[4]?.any (· = .known exprs)
  | unwindProtectForm => fitsTemplate kind roles && roles[2]?.any (· = .known optExprs)
  | kind => fitsTemplate kind roles

end Nonterminal

namespace Node

def role (node : Node) : Role := node.symbol.role

/-- Whether a node has the children that are read in it. -/
def fits : Node → Bool
  | token _ => true
  | tree kind children _ => kind.fits (children.map role)

/-- Every node of the tree fits. -/
def Shaped (node : Node) : Prop := ∀ m ∈ node.subnodes, m.fits = true

@[simp] theorem role_token (i : Instruction) : (token i).role = .instruction := rfl

theorem eq_tree_of_isKind {node : Node} {kind : Nonterminal} (h : node.isKind kind = true) :
    ∃ children idiom, node = tree kind children idiom := by
  cases node with
  | token i => simp [isKind, kind?] at h
  | tree kind' children idiom =>
    obtain rfl : kind' = kind := by simpa [isKind, kind?] using h
    exact ⟨children, idiom, rfl⟩

theorem role_of_isKind {node : Node} {kind : Nonterminal} (h : node.isKind kind = true) :
    node.role = kind.role := by
  obtain ⟨children, idiom, rfl⟩ := eq_tree_of_isKind h
  rfl

theorem all_roles {children : List Node} {p : Role → Bool} :
    (children.map role).all p = true ↔ ∀ c ∈ children, p c.role = true := by
  simp

theorem any_role {children : List Node} {p : Role → Bool} {n : Nat} :
    (children.map role)[n]?.any p = true ↔ ∃ c, children[n]? = some c ∧ p c.role = true := by
  rw [List.getElem?_map, Option.any_map, Option.any_eq_true]

/-- The role of a node tells its kind, if the node above knows it. -/
theorem eq_tree_of_role {node : Node} {kind : Nonterminal} (h : node.role = .known kind) :
    ∃ children idiom, node = tree kind children idiom := by
  cases node with
  | token i => cases h
  | tree kind' children idiom =>
    change kind'.role = _ at h
    unfold Nonterminal.role at h
    split at h
    · cases h
      exact ⟨children, idiom, rfl⟩
    · cases h

theorem isSome_role {children : List Node} {n : Nat} :
    (children.map role)[n]?.isSome = true ↔ ∃ c, children[n]? = some c := by
  rw [List.getElem?_map, Option.isSome_map, Option.isSome_iff_exists]

/-- What the node above knows of a child holds of the child that it reads. -/
theorem role_eq_of_any {children : List Node} {c : Node} {kind : Nonterminal} {n : Nat}
    (h : (children.map role)[n]?.any (· = .known kind) = true) (hc : children[n]? = some c) :
    c.role = .known kind := by
  obtain ⟨c', hc', hrole⟩ := any_role.1 h
  exact Option.some.inj (hc'.symm.trans hc) ▸ of_decide_eq_true hrole

end Node

/-- Whether an instruction reads a value of the stack, and leaves it there. -/
def Instruction.readsStack (i : Instruction) : Bool := i.isOp .dup || i.isOp .stackRef

namespace Node

/-- Whether no instruction of the node reads a value of the stack. -/
def isQuiet (node : Node) : Bool := node.tokens.all (!·.readsStack)

/-- Whether a node is no loop whose start value reads the stack. The start value is put on the stack
unrendered, where it would read itself. -/
def startsQuiet : Node → Bool
  | tree .whileForm1 (start :: _) _ => start.isQuiet
  | _ => true

/-- No loop in the tree has a start value that reads the stack. -/
def LoopsStartQuiet (node : Node) : Prop := ∀ m ∈ node.subnodes, m.startsQuiet = true

variable {kind : Nonterminal} {children : List Node} {idiom : Option Idiom}

theorem startsQuiet_tree : (tree kind children idiom).startsQuiet = true ↔
    (kind = .whileForm1 → ∀ start, children.head? = some start → start.isQuiet = true) := by
  unfold startsQuiet
  split
  next heq =>
    cases heq
    simp
  next hne =>
    refine ⟨fun _ hkind start hstart => ?_, fun _ => rfl⟩
    obtain ⟨rest, rfl⟩ := List.head?_eq_some_iff.1 hstart
    exact (hne start rest idiom (by rw [hkind])).elim

theorem isQuiet_tree :
    (tree kind children idiom).isQuiet = true ↔ ∀ c ∈ children, c.isQuiet = true := by
  change (tokensOf children).all _ = true ↔ _
  induction children with
  | nil => simp [tokensOf]
  | cons c rest ih => simp_all [tokensOf, isQuiet]

theorem shaped_tree : (tree kind children idiom).Shaped ↔
    kind.fits (children.map role) = true ∧ ∀ c ∈ children, c.Shaped := forall_subnodes_tree

namespace Shaped

variable {node : Node}

theorem fits_of_isKind (h : node.Shaped) (hkind : node.isKind kind = true) :
    kind.fits (node.children.map role) = true := by
  obtain ⟨children, idiom, rfl⟩ := eq_tree_of_isKind hkind
  exact (shaped_tree.1 h).1

theorem fits_of_role (h : node.Shaped) (hrole : node.role = .known kind) :
    kind.fits (node.children.map role) = true := by
  obtain ⟨children, idiom, rfl⟩ := eq_tree_of_role hrole
  exact (shaped_tree.1 h).1

end Shaped

theorem loopsStartQuiet_tree : (tree kind children idiom).LoopsStartQuiet ↔
    (tree kind children idiom).startsQuiet = true ∧ ∀ c ∈ children, c.LoopsStartQuiet :=
  forall_subnodes_tree

end Node

namespace Nonterminal

/-- A list fits if each of its items does. -/
theorem fits_append {kind : Nonterminal} {roles rest : List Role} (hkind : kind.isCollected = true)
    (h : kind.fits roles = true) (hrest : kind.fits rest = true) :
    kind.fits (roles ++ rest) = true := by
  cases kind <;> simp [isCollected] at hkind <;>
    simp_all only [fits, fitsTemplate, template?, List.all_append, Bool.and_self, Option.getD_some,
      List.all_nil]

end Nonterminal

namespace Grammar

open ElispLift.Derivation

/-- Each rule puts together what fits. A rule that puts an item behind a list is seen without the
list. -/
theorem fits_base : ∀ r ∈ base,
    r.lhs.fits ((if r.lhs.isCollected && r.isAppend then r.rhs.tail else r.rhs).map Symbol.role) =
      true := by
  decide +kernel

theorem fits_arityRule (family : Family) (count : Nat) :
    (arityRule family count).lhs.fits ((arityRule family count).rhs.map Symbol.role) = true := by
  have hexpr : (Symbol.role (.nonterminal .expr)).isRendered = true := rfl
  have hall : ((arityRule family count).rhs.map Symbol.role).all Role.isRendered = true := by
    rw [arityRule, List.map_append, List.map_replicate, List.all_append, List.all_replicate, hexpr]
    simp [Symbol.role, Role.isRendered]
  cases family with
  | call =>
    have hany : ((arityRule .call count).rhs.map Symbol.role).any Role.isTree = true := by
      simp [arityRule, Family.operands, List.replicate_succ, Symbol.role, Role.isTree,
        Nonterminal.role, Nonterminal.isKnown]
    exact Bool.and_eq_true_iff.2 ⟨hall, hany⟩
  | _ => exact hall

theorem fits_rule {source : List Instruction} {r : Rule} (h : r ∈ base ++ arityRules source) :
    r.lhs.fits ((if r.lhs.isCollected && r.isAppend then r.rhs.tail else r.rhs).map Symbol.role) =
      true := by
  rcases List.mem_append.1 h with h | h
  · exact fits_base r h
  · obtain ⟨family, count, -, rfl | rfl⟩ := arityRulesAfter_mem h
    · exact fits_arityRule family count
    · rfl

theorem arrange_of_plain {r : Rule} {trees : List Node}
    (h : (r.lhs.isCollected && r.isAppend) = false) : arrange r trees = trees := by
  cases trees with
  | nil => rfl
  | cons first rest => rw [arrange, h, if_neg Bool.false_ne_true]

/-- A node has the children that its rule gives it. -/
theorem fits_arrange {source : List Instruction} {r : Rule} {parts : List Derivation} {first : Nat}
    (hfits : Fits (base ++ arityRules source) r parts)
    (hparts : Node.EverywhereOf (fun kind children _ _ => kind.fits (children.map Node.role) = true)
      first (treesOf parts)) :
    r.lhs.fits ((arrange r (treesOf parts)).map Node.role) = true := by
  have hroles : (treesOf parts).map Node.role = r.rhs.map Symbol.role := by
    rw [← hfits.2, ← symbols_treesOf, List.map_map]
    rfl
  have hrule := fits_rule hfits.1
  cases hcollect : r.lhs.isCollected && r.isAppend with
  | false =>
    rw [hcollect] at hrule
    rw [arrange_of_plain hcollect, hroles]
    exact hrule
  | true =>
    obtain ⟨hplain, -⟩ | ⟨items, rest, htrees, he⟩ := arrange_cases hfits
    · simp [hcollect] at hplain
    rw [hcollect] at hrule
    rw [htrees] at hroles hparts
    have hrest : rest.map Node.role = r.rhs.tail.map Symbol.role := by
      rw [List.map_tail, ← hroles]
      rfl
    rw [he, List.map_append, hrest]
    exact Nonterminal.fits_append (Bool.and_eq_true_iff.1 hcollect).1 hparts.1.1 hrule

end Grammar

namespace Node

mutual

theorem Everywhere.subnodes {p : Nonterminal → List Node → Nat → Nat → Prop} {q : Node → Prop}
    (htoken : ∀ i, q (token i)) (h : ∀ kind children i j idiom, p kind children i j →
      q (tree kind children idiom)) :
    ∀ {node : Node} {first : Nat}, node.Everywhere p first → ∀ m ∈ node.subnodes, q m
  | token i, _, _ => by simpa [Node.subnodes] using htoken i
  | tree kind children idiom, first, ⟨hp, hchildren⟩ => by
    have hbelow := EverywhereOf.subnodes htoken h hchildren
    simpa [Node.subnodes] using ⟨h _ _ _ _ idiom hp, hbelow⟩

theorem EverywhereOf.subnodes {p : Nonterminal → List Node → Nat → Nat → Prop} {q : Node → Prop}
    (htoken : ∀ i, q (token i)) (h : ∀ kind children i j idiom, p kind children i j →
      q (tree kind children idiom)) :
    ∀ {nodes : List Node} {first : Nat}, EverywhereOf p first nodes → ∀ m ∈ subnodesOf nodes, q m
  | [], _, _ => by simp [subnodesOf]
  | node :: rest, first, ⟨hnode, hrest⟩ => by
    intro m hm
    rcases List.mem_append.1 hm with hm | hm
    · exact Everywhere.subnodes htoken h hnode m hm
    · exact EverywhereOf.subnodes htoken h hrest m hm

end

end Node

/-- Parsed trees fit everywhere. -/
theorem shaped_of_parse {start : Nonterminal} {source tokens : List Instruction} {tree : Node}
    (h : parse start (Grammar.arityRules source) tokens = .ok tree) :
    tree.Shaped ∧ tree.role = start.role := by
  obtain ⟨d, hsymbol, -, rfl, hd⟩ := exists_derivation_of_parse h
  refine ⟨?_, by rw [Node.role, Derivation.symbol_tree, hsymbol]; rfl⟩
  have hall := Derivation.Everywhere.tree
    (p := fun kind children _ _ => kind.fits (children.map Node.role) = true)
    (fun _ _ _ _ hchecked => hchecked.fits)
    (fun _ _ _ _ hchecked hparts => Grammar.fits_arrange hchecked.fits hparts) hd
  exact hall.subnodes (fun _ => rfl) fun _ _ _ _ _ hfits => hfits

namespace Node

/-- A node that is no list has the children that some rule gives it. -/
theorem exists_rule {start : Nonterminal} {extra : List Rule} {tokens : List Instruction}
    {tree : Node} (h : parse start extra tokens = .ok tree) :
    ∀ n ∈ tree.subnodes, ∀ kind children idiom, n = .tree kind children idiom →
      kind.isCollected = false →
        ∃ r ∈ Grammar.base ++ extra, r.lhs = kind ∧ r.rhs = children.map symbol := by
  obtain ⟨d, -, -, rfl, hd⟩ := exists_derivation_of_parse h
  have hall := Derivation.Everywhere.tree
    (p := fun kind children _ _ => kind.isCollected = false →
      ∃ r ∈ Grammar.base ++ extra, r.lhs = kind ∧ r.rhs = children.map symbol)
    (fun _ _ _ _ hchecked => hchecked.fits)
    (fun r parts _ _ hchecked _ hplain => by
      have harrange : (r.lhs.isCollected && r.isAppend) = false := by simp [hplain]
      refine ⟨r, hchecked.fits.1, rfl, ?_⟩
      rw [Grammar.arrange_of_plain harrange, Derivation.symbols_treesOf, hchecked.fits.2]) hd
  refine hall.subnodes (fun _ => nofun) fun kind children _ _ idiom hrule => ?_
  rintro _ _ _ he hplain
  cases he
  exact hrule hplain

theorem symbol_eq_terminal {node : Node} {op : Opcode} :
    node.symbol = .terminal (.fixed op) ↔ node.isOp op = true := by
  cases node <;> simp [symbol, Node.isOp, token?, Instruction.isOp]

end Node

end ElispLift

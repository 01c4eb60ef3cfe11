import ElispLift.Blocks.Annotation
import ElispLift.Proofs.Idioms.Shape

/-!
# Idioms keep the instructions

An idiom merges operations into others, and a statement that becomes a branch loses its discard. The
other instructions of a parsed tree stay in their order, as long as the tree has no call, no binding
and no expanded loop over a list, whose idioms put one form in place of another. This rests on how
the grammar lays out the nodes that idioms take apart, and idioms keep it.
-/

namespace ElispLift

/-- Operations that are merged into others, and the discard of a value. -/
def Opcode.isMerged : Opcode → Bool
  | .not | .eqlsign | .neqlsign | .car | .cdr | .caar | .cadr | .cdar | .cddr | .max | .min
  | .nconc | .discard => true
  | _ => false

/-- Whether an instruction stays when idioms are recognised. -/
def Instruction.isKept (i : Instruction) : Bool :=
  match i.kind with
  | .fixed op => !op.isMerged
  | .counted _ _ => true

theorem Instruction.isKept_of_isOp {i : Instruction} {op : Opcode} (hi : i.isOp op = true)
    (hop : op.isMerged = true) : i.isKept = false := by
  have hkind : i.kind = .fixed op := of_decide_eq_true hi
  simp [isKept, hkind, hop]

namespace Nonterminal

/-- Kinds that no idiom changes and that idioms look for in their place. -/
def isSteady : Nonterminal → Bool
  | unaryOp | binaryOp | optDiscard | exprStmt | exprs | body | comeFroms => true
  | _ => false

/-- Kinds whose idioms put one form in place of another. -/
def isReplaced : Nonterminal → Bool
  | letFormStar | dolistMacro | .counted .call => true
  | _ => false

end Nonterminal

/-- What idioms see of a child from above, which they leave as it is. -/
def Symbol.seen : Symbol → Option Symbol
  | nonterminal kind => if kind.isSteady then some (nonterminal kind) else none
  | s => some s

namespace Nonterminal

/-- Whether a node of the kind has the children that idioms count on, by what is seen of them. -/
@[simp] def isStandard (kind : Nonterminal) (seen : List (Option Symbol)) : Bool :=
  match kind with
  | unaryOp | binaryOp => seen.length = 1
  | optDiscard => seen.length ≤ 1 && seen.all (· = some (.terminal (.fixed .discard)))
  | exprStmt => seen.length = 2 && seen[1]? = some (some (.nonterminal optDiscard))
  | exprs => seen.all (· = some (.nonterminal exprStmt))
  | body => seen = [some (.nonterminal exprs)]
  | unaryExpr => seen[1]? = some (some (.nonterminal unaryOp))
  | binaryExpr => seen.length = 3 && seen[2]? = some (some (.nonterminal binaryOp))
  | whenMacro =>
    seen[2]? = some (some (.nonterminal body)) && seen[3]? = some (some (.nonterminal comeFroms))
  | saveCurrentBufferForm => seen[1]? = some (some (.nonterminal body))
  | _ => true

end Nonterminal

namespace Node

variable {node c : Node} {kind : Nonterminal} {children : List Node} {idiom : Option Idiom}

/-! ### What stays -/

/-- The instructions of a node that stay when idioms are recognised. -/
def kept (node : Node) : List Instruction := node.tokens.filter Instruction.isKept

def keptOf (nodes : List Node) : List Instruction := (tokensOf nodes).filter Instruction.isKept

@[simp] theorem keptOf_nil : keptOf [] = [] := rfl

@[simp] theorem keptOf_cons (node : Node) (rest : List Node) :
    keptOf (node :: rest) = node.kept ++ keptOf rest := List.filter_append ..

@[simp] theorem keptOf_append (nodes rest : List Node) :
    keptOf (nodes ++ rest) = keptOf nodes ++ keptOf rest := by
  rw [keptOf, tokensOf_append, List.filter_append]
  rfl

@[simp] theorem kept_tree (kind : Nonterminal) (children : List Node) (idiom : Option Idiom) :
    (tree kind children idiom).kept = keptOf children := rfl

@[simp] theorem kept_plain (kind : Nonterminal) (children : List Node) :
    (plain kind children).kept = keptOf children := rfl

theorem kept_token_of_isOp {i : Instruction} {op : Opcode} (hi : i.isOp op = true)
    (hop : op.isMerged = true) : (token i).kept = [] := by
  simp [kept, tokens, Instruction.isKept_of_isOp hi hop]

theorem kept_unwrap (node : Node) : node.unwrap.kept = node.kept := by
  fun_induction Node.unwrap node with
  | case1 only idiom ih => simp [ih]
  | case2 only idiom ih => simp [ih]
  | case3 node => rfl

theorem kept_of_unwrap (hu : node.unwrap = tree kind children idiom) :
    node.kept = keptOf children := by
  rw [← kept_unwrap, hu, kept_tree]

theorem kept_operator (kind : Nonterminal) {op : Opcode} {offset : Nat} (hop : op.isMerged = true) :
    (operator kind op offset).kept = [] := by
  have hi : (Instruction.ofOpcode op none offset).isOp op = true := by
    simp [Instruction.isOp, Instruction.ofOpcode]
  simp [operator, kept_token_of_isOp hi hop]

/-! ### Standard trees -/

def seen (node : Node) : Option Symbol := node.symbol.seen

/-- Whether the children of a node are those that idioms count on. -/
def isStandard : Node → Bool
  | token _ => true
  | tree kind children _ => kind.isStandard (children.map seen)

/-- Every node of the tree has the children that idioms count on. -/
def Standard (node : Node) : Prop := ∀ m ∈ node.subnodes, m.isStandard = true

theorem eq_tree_of_seen (h : node.seen = some (.nonterminal kind)) :
    ∃ children idiom, node = tree kind children idiom := by
  cases node with
  | token i => cases h
  | tree kind' children idiom =>
    simp only [seen, symbol, Symbol.seen, Option.ite_none_right_eq_some, Option.some.injEq,
      Symbol.nonterminal.injEq] at h
    exact ⟨children, idiom, by rw [h.2]⟩

theorem isOp_of_seen {op : Opcode} (h : node.seen = some (.terminal (.fixed op))) :
    ∃ i, node = token i ∧ i.isOp op = true := by
  cases node with
  | token i =>
    simp only [seen, symbol, Symbol.seen, Option.some.injEq, Symbol.terminal.injEq] at h
    exact ⟨i, rfl, decide_eq_true h⟩
  | tree kind' children idiom =>
    simp only [seen, symbol, Symbol.seen] at h
    split at h <;> cases h

theorem standard_tree : (tree kind children idiom).Standard ↔
    kind.isStandard (children.map seen) = true ∧ ∀ c ∈ children, c.Standard :=
  forall_subnodes_tree

@[simp] theorem standard_token (i : Instruction) : (token i).Standard := by
  simp [Standard, subnodes, isStandard]

namespace Standard

theorem of_mem (h : node.Standard) (hc : c ∈ node.children) : c.Standard := by
  cases node with
  | token i => simp [Node.children] at hc
  | tree kind children idiom => exact (standard_tree.1 h).2 c hc

theorem unwrap (h : node.Standard) : node.unwrap.Standard := by
  fun_induction Node.unwrap node with
  | case1 only idiom ih => exact ih (h.of_mem (List.mem_singleton_self only))
  | case2 only idiom ih => exact ih (h.of_mem (List.mem_singleton_self only))
  | case3 => exact h

theorem of_unwrap (h : node.Standard) (hu : node.unwrap = tree kind children idiom) :
    (tree kind children idiom).Standard := hu ▸ h.unwrap

/-- An operation that is merged is the only instruction of its node. -/
theorem kept_of_operatorIs {op : Opcode} (h : node.Standard)
    (hkind : kind = .unaryOp ∨ kind = .binaryOp) (hseen : node.seen = some (.nonterminal kind))
    (hop : node.operatorIs op = true) (hmerged : op.isMerged = true) : node.kept = [] := by
  obtain ⟨children, idiom, rfl⟩ := eq_tree_of_seen hseen
  have hlength : children.length = 1 := by
    have hstandard := (standard_tree.1 h).1
    rcases hkind with rfl | rfl <;> simpa using hstandard
  obtain ⟨only, rfl⟩ := List.length_eq_one_iff.1 hlength
  cases only with
  | token i =>
    have hi : i.isOp op = true := by
      simpa [operatorIs, operator?, child?, Node.children, token?] using hop
    simp [kept_token_of_isOp hi hmerged]
  | tree kind' children' idiom' =>
    simp [operatorIs, operator?, child?, Node.children, token?] at hop

/-- The operator of a unary application has no other instruction than the operation. -/
theorem kept_unaryOp {op : Opcode} {operand sign : Node}
    (h : (tree .unaryExpr [operand, sign] idiom).Standard) (hop : sign.operatorIs op = true)
    (hmerged : op.isMerged = true) : sign.kept = [] := by
  obtain ⟨hseen, hs⟩ := standard_tree.1 h
  exact (hs sign (by simp)).kept_of_operatorIs (.inl rfl)
    (by simpa using hseen) hop hmerged

/-- The operator of a binary application is its last child, and has no other instruction than the
operation. -/
theorem kept_binaryOp {op : Opcode} {a b sign : Node} {rest : List Node}
    (h : (tree .binaryExpr (a :: b :: sign :: rest) idiom).Standard)
    (hop : sign.operatorIs op = true) (hmerged : op.isMerged = true) :
    rest = [] ∧ sign.kept = [] := by
  obtain ⟨hseen, hs⟩ := standard_tree.1 h
  simp only [Nonterminal.isStandard, List.length_map, Bool.and_eq_true, decide_eq_true_eq] at hseen
  exact ⟨by simpa using hseen.1, (hs sign (by simp)).kept_of_operatorIs (.inr rfl)
    (by simpa using hseen.2) hop hmerged⟩

/-- A discard is the only instruction that the end of a statement can have. -/
theorem kept_of_optDiscard (h : node.Standard)
    (hseen : node.seen = some (.nonterminal .optDiscard)) : node.kept = [] := by
  obtain ⟨children, idiom, rfl⟩ := eq_tree_of_seen hseen
  have hstandard := (standard_tree.1 h).1
  simp only [Nonterminal.isStandard, List.length_map, List.all_map, Bool.and_eq_true,
    decide_eq_true_eq, List.all_eq_true, Function.comp_apply] at hstandard
  cases children with
  | nil => rfl
  | cons c rest =>
    obtain rfl : rest = [] := by simpa using hstandard.1
    obtain ⟨i, rfl, hi⟩ := isOp_of_seen (hstandard.2 c (by simp))
    simp [kept_token_of_isOp hi rfl]

/-- The statements of a body are all that it holds. -/
theorem statements (h : node.Standard) (hseen : node.seen = some (.nonterminal .body)) :
    node.kept = keptOf node.statements ∧
      ∀ s ∈ node.statements, s.Standard ∧ s.seen = some (.nonterminal .exprStmt) := by
  obtain ⟨children, idiom, rfl⟩ := eq_tree_of_seen hseen
  have hstandard : children.map seen = [some (.nonterminal .exprs)] :=
    of_decide_eq_true (standard_tree.1 h).1
  obtain ⟨list, rfl, hlist⟩ := List.map_eq_singleton_iff.1 hstandard
  obtain ⟨items, idiom', rfl⟩ := eq_tree_of_seen hlist
  have hitems := standard_tree.1 (h.of_mem (List.mem_singleton_self _))
  have hall : ∀ s ∈ items, s.seen = some (.nonterminal .exprStmt) := by
    simpa using hitems.1
  refine ⟨by simp [Node.statements, isKind, kind?, child?, Node.children], fun s hs => ?_⟩
  exact ⟨hitems.2 s hs, hall s hs⟩

/-- A statement is an expression and its end. -/
theorem statement (h : node.Standard) (hseen : node.seen = some (.nonterminal .exprStmt)) :
    ∃ e d idiom, node = tree .exprStmt [e, d] idiom ∧ d.seen = some (.nonterminal .optDiscard) := by
  obtain ⟨children, idiom, rfl⟩ := eq_tree_of_seen hseen
  have hstandard := (standard_tree.1 h).1
  simp only [Nonterminal.isStandard, List.length_map, Bool.and_eq_true, decide_eq_true_eq]
    at hstandard
  obtain ⟨hlength, hlast⟩ := hstandard
  obtain ⟨e, d, rfl⟩ := List.length_eq_two.1 hlength
  exact ⟨e, d, idiom, rfl, by simpa using hlast⟩

end Standard

end Node

/-- A form that takes the place of a node with these children keeps their instructions, and is seen
alike from above. -/
structure Node.StandsFor (node : Node) (kind : Nonterminal) (children : List Node) : Prop where
  standard : node.Standard
  seen : node.seen = (Symbol.nonterminal kind).seen
  kept : node.kept = Node.keptOf children

namespace Idiom

open Node

variable {children : List Node} {node : Node}

theorem standard_operator (kind : Nonterminal) {op : Opcode} {offset : Nat}
    (hkind : kind = .unaryOp ∨ kind = .binaryOp) : (operator kind op offset).Standard := by
  rcases hkind with rfl | rfl <;> exact standard_tree.2 ⟨rfl, by simp⟩

theorem notEqual_standsFor {operand op a b inner : Node} {sign : Instruction}
    {idiom : Option Idiom} (hn : (tree .unaryExpr [operand, op] none).Standard)
    (hnot : op.operatorIs .not = true)
    (hu : operand.unwrap = tree .binaryExpr [a, b, inner] idiom)
    (hsign : inner.operator? = some sign) (hequal : sign.isOp .eqlsign = true) :
    (made .notEqual .binaryExpr [a, b, operator .binaryOp .neqlsign sign.offset]).StandsFor
      .unaryExpr [operand, op] := by
  have hop := hn.kept_unaryOp hnot rfl
  have hequation := ((standard_tree.1 hn).2 operand (by simp)).of_unwrap hu
  have heqlsign : inner.operatorIs .eqlsign = true := by simp [operatorIs, hsign, hequal]
  obtain ⟨-, hinner⟩ := hequation.kept_binaryOp heqlsign rfl
  have hs := (standard_tree.1 hequation).2
  have hoperator : (operator .binaryOp .neqlsign sign.offset).Standard :=
    standard_operator .binaryOp (.inr rfl)
  have hneqlsign : Opcode.neqlsign.isMerged = true := rfl
  refine ⟨standard_tree.2 ⟨rfl, ?_⟩, rfl, ?_⟩
  · simp [hs a (by simp), hs b (by simp), hoperator]
  · simp [made, hop, kept_of_unwrap hu, hinner, kept_operator .binaryOp hneqlsign]

theorem operatorIs_of_takesHead? {op : Node} {head : Bool} (h : takesHead? op = some head) :
    op.operatorIs (if head then .car else .cdr) = true := by
  unfold takesHead? at h
  grind

theorem cxr_standsFor {operand op x innerOp : Node} {outer inner : Bool} {idiom : Option Idiom}
    {offset : Nat} (hn : (tree .unaryExpr [operand, op] none).Standard)
    (houter : takesHead? op = some outer)
    (hu : operand.unwrap = tree .unaryExpr [x, innerOp] idiom)
    (hinner : takesHead? innerOp = some inner) :
    (made .cxr .unaryExpr [x, operator .unaryOp (combined outer inner) offset]).StandsFor
      .unaryExpr [operand, op] := by
  have hmerged : ∀ head : Bool, (if head then Opcode.car else .cdr).isMerged = true := by decide
  have hop := hn.kept_unaryOp (operatorIs_of_takesHead? houter) (hmerged _)
  have happlied := ((standard_tree.1 hn).2 operand (by simp)).of_unwrap hu
  have hinnerOp := happlied.kept_unaryOp (operatorIs_of_takesHead? hinner) (hmerged _)
  have hx := (standard_tree.1 happlied).2 x (by simp)
  have hcombined : (combined outer inner).isMerged = true := by
    cases outer <;> cases inner <;> rfl
  refine ⟨standard_tree.2 ⟨rfl, ?_⟩, rfl, ?_⟩
  · simp [hx, standard_operator .unaryOp (.inl rfl)]
  · simp [made, hop, kept_of_unwrap hu, hinnerOp, kept_operator .unaryOp hcombined]

/-- The arguments of nested applications are all that is in them. -/
theorem keptOf_arguments {op : Opcode} (family : Family) {whole : Node}
    (hop : op.isMerged = true) (hwhole : whole.kept = node.kept) (hw : whole.Standard)
    (hn : node.Standard) :
    keptOf (arguments op family whole node) = node.kept ∧
      ∀ a ∈ arguments op family whole node, a.Standard := by
  fun_induction arguments op family whole node with
  | case1 whole only idiom ih =>
    simpa using ih (by simpa using hwhole) hw (hn.of_mem (List.mem_singleton_self only))
  | case2 whole only idiom ih =>
    simpa using ih (by simpa using hwhole) hw (hn.of_mem (List.mem_singleton_self only))
  | case3 whole a b o rest idiom ho iha ihb =>
    obtain ⟨rfl, hkept⟩ := hn.kept_binaryOp ho hop
    have hs := (standard_tree.1 hn).2
    obtain ⟨hka, hsa⟩ := iha rfl (hs a (by simp)) (hs a (by simp))
    obtain ⟨hkb, hsb⟩ := ihb rfl (hs b (by simp)) (hs b (by simp))
    refine ⟨by simp [hka, hkb, hkept], fun m hm => ?_⟩
    rcases List.mem_append.1 hm with hm | hm
    · exact hsa m hm
    · exact hsb m hm
  | case4 => exact ⟨by simp [hwhole], by simpa using hw⟩
  | case5 whole children idiom _ => exact ⟨rfl, (standard_tree.1 hn).2⟩
  | case6 => exact ⟨by simp [hwhole], by simpa using hw⟩
  | case7 => exact ⟨by simp [hwhole], by simpa using hw⟩

theorem flatten_standsFor {a b op : Node} {rest : List Node} {opcode : Opcode} {family : Family}
    (hn : (tree .binaryExpr (a :: b :: op :: rest) none).Standard)
    (hmem : (opcode, family) ∈ associative) (his : op.operatorIs opcode = true) :
    (made .flatten (.counted family)
      (arguments opcode family a a ++ arguments opcode family b b)).StandsFor .binaryExpr
        (a :: b :: op :: rest) := by
  have hmerged : opcode.isMerged = true := by
    simp only [associative, List.mem_cons, Prod.mk.injEq, List.not_mem_nil, or_false] at hmem
    rcases hmem with ⟨rfl, -⟩ | ⟨rfl, -⟩ | ⟨rfl, -⟩ <;> rfl
  obtain ⟨rfl, hop⟩ := hn.kept_binaryOp his hmerged
  have hs := (standard_tree.1 hn).2
  obtain ⟨hka, hsa⟩ := keptOf_arguments family hmerged rfl (hs a (by simp)) (hs a (by simp))
  obtain ⟨hkb, hsb⟩ := keptOf_arguments family hmerged rfl (hs b (by simp)) (hs b (by simp))
  refine ⟨standard_tree.2 ⟨rfl, fun m hm => ?_⟩, rfl, by simp [made, hka, hkb, hop]⟩
  rcases List.mem_append.1 hm with hm | hm
  · exact hsa m hm
  · exact hsb m hm

theorem andStatement_standsFor {expr discard : Node} {parts : List Node} {idiom : Option Idiom}
    (hn : (tree .exprStmt [expr, discard] none).Standard)
    (hu : expr.unwrap = tree .andForm parts idiom) :
    (made .andStatement .exprStmt
      [plain .expr [made .andStatement .ifForm parts], discard]).StandsFor .exprStmt
        [expr, discard] := by
  obtain ⟨hseen, hs⟩ := standard_tree.1 hn
  have hparts := (standard_tree.1 ((hs expr (by simp)).of_unwrap hu)).2
  have hif : (made .andStatement .ifForm parts).Standard := standard_tree.2 ⟨rfl, hparts⟩
  have hexpr : (plain .expr [made .andStatement .ifForm parts]).Standard :=
    standard_tree.2 ⟨rfl, by simpa using hif⟩
  refine ⟨standard_tree.2 ⟨?_, by simpa [hexpr] using hs discard (by simp)⟩, rfl, ?_⟩
  · simpa using hseen
  · simp [made, kept_of_unwrap hu]

theorem whenToIf_standsFor {condition jump body comeFroms label only first : Node}
    (hn : (tree .whenMacro [condition, jump, body, comeFroms, label] none).Standard)
    (hbody : body.statements = [only]) (hfirst : only.child? 0 = some first) :
    (made .whenToIf .ifForm [condition, jump, first, plain .optComeFrom comeFroms.children,
      plain .optLabel [label]]).StandsFor .whenMacro [condition, jump, body, comeFroms, label] := by
  obtain ⟨hseen, hs⟩ := standard_tree.1 hn
  obtain ⟨hseenBody, hseenComeFroms⟩ : body.seen = some (.nonterminal .body) ∧
      comeFroms.seen = some (.nonterminal .comeFroms) := by
    simpa using hseen
  obtain ⟨hkept, hstatements⟩ := (hs body (by simp)).statements hseenBody
  obtain ⟨honly, hseenOnly⟩ := hstatements only (by simp [hbody])
  obtain ⟨e, d, idiom, rfl, hend⟩ := honly.statement hseenOnly
  obtain rfl : e = first := Option.some.inj hfirst
  have hd : d.kept = [] := (honly.of_mem (by simp [Node.children])).kept_of_optDiscard hend
  obtain ⟨froms, idiom', rfl⟩ := eq_tree_of_seen hseenComeFroms
  have hfroms : (plain .optComeFrom froms).Standard := standard_tree.2
    ⟨rfl, (standard_tree.1 (hs (tree .comeFroms froms idiom') (by simp))).2⟩
  have hlabel : (plain .optLabel [label]).Standard :=
    standard_tree.2 ⟨rfl, by simpa using hs label (by simp)⟩
  have he : e.Standard := honly.of_mem (by simp [Node.children])
  refine ⟨standard_tree.2 ⟨rfl, ?_⟩, rfl, ?_⟩
  · simpa [he, Node.children, hfroms, hlabel] using ⟨hs condition (by simp), hs jump (by simp)⟩
  · simp [made, hkept, hbody, hd, Node.children]

theorem withCurrentBuffer_standsFor
    {save body unbind first expr optDiscard discard buffer set : Node} {rest : List Node}
    {idiom : Option Idiom}
    (hn : (tree .saveCurrentBufferForm [save, body, unbind] none).Standard)
    (hbody : body.statements = first :: rest) (hfirst : first.children = [expr, optDiscard])
    (hu : expr.unwrap = tree .setBuffer [buffer, set] idiom)
    (hdiscard : optDiscard.child? 0 = some discard) :
    (made .withCurrentBuffer .withCurrentBufferMacro
      [save, buffer, set, discard, plain .exprs rest, unbind]).StandsFor .saveCurrentBufferForm
        [save, body, unbind] := by
  obtain ⟨hseen, hs⟩ := standard_tree.1 hn
  have hseenBody : body.seen = some (.nonterminal .body) := by
    simpa using hseen
  obtain ⟨hkept, hstatements⟩ := (hs body (by simp)).statements hseenBody
  obtain ⟨hstandard, hseenFirst⟩ := hstatements first (by simp [hbody])
  obtain ⟨e, d, idiom, rfl, hend⟩ := hstandard.statement hseenFirst
  cases hfirst
  have he : expr.Standard := hstandard.of_mem (by simp [Node.children])
  have hd : optDiscard.Standard := hstandard.of_mem (by simp [Node.children])
  have hparts := (standard_tree.1 (he.of_unwrap hu)).2
  have hnone : optDiscard.kept = [] := hd.kept_of_optDiscard hend
  obtain ⟨ends, idiom'', rfl⟩ := eq_tree_of_seen hend
  have hdropped : discard.kept = [] := by
    obtain ⟨before, after, rfl⟩ := List.append_of_mem (List.mem_of_getElem? hdiscard)
    simp_all
  have hrest : (plain .exprs rest).Standard := by
    refine standard_tree.2 ⟨List.all_eq_true.2 fun s hmem => ?_, fun s hmem => ?_⟩
    · obtain ⟨c, hc, rfl⟩ := List.mem_map.1 hmem
      exact decide_eq_true (hstatements c (by simp [hbody, hc])).2
    · exact (hstatements s (by simp [hbody, hmem])).1
  refine ⟨standard_tree.2 ⟨rfl, ?_⟩, rfl, ?_⟩
  · simp [hs save (by simp), hs unbind (by simp), hparts buffer (by simp), hparts set (by simp),
      hd.of_mem (List.mem_of_getElem? hdiscard), hrest]
  · simp [made, hkept, hbody, kept_of_unwrap hu, hdropped, hnone]

/-- What takes the place of a node keeps its instructions, unless it replaces one form by
another. -/
theorem recognize?_standsFor {kind : Nonterminal} (hkind : kind.isReplaced = false)
    (hn : (tree kind children none).Standard) (h : recognize? kind children = some node) :
    node.StandsFor kind children := by
  cases makes_of_recognize? h with
  | notEqual hop hu hsign hequal => exact notEqual_standsFor hn hop hu hsign hequal
  | cxr houter hu hinner => exact cxr_standsFor hn houter hu hinner
  | flatten hmem hop => exact flatten_standsFor hn hmem hop
  | andStatement _ hu => exact andStatement_standsFor hn hu
  | whenToIf hbody hfirst => exact whenToIf_standsFor hn hbody hfirst
  | withCurrentBuffer hbody hfirst hu hdiscard =>
    exact withCurrentBuffer_standsFor hn hbody hfirst hu hdiscard
  | defvar | kbd | withTempBuffer | dolist => cases hkind

end Idiom

namespace Node

/-- Recognising idioms in a node keeps its instructions. -/
def KeepsInstructions (node : Node) : Prop :=
  node.Standard → (∀ m ∈ node.subnodes, ∀ kind, m.kind? = some kind → kind.isReplaced = false) →
    node.idiomatic.Standard ∧ node.idiomatic.seen = node.seen ∧ node.idiomatic.kept = node.kept

theorem keptOf_congr {nodes : List Node} {f : Node → Node}
    (h : ∀ c ∈ nodes, (f c).kept = c.kept) : keptOf (nodes.map f) = keptOf nodes := by
  induction nodes with
  | nil => rfl
  | cons c rest ih => simp_all

theorem keepsInstructions_tree {kind : Nonterminal} {children : List Node} {idiom : Option Idiom}
    (h : ∀ c ∈ children, c.KeepsInstructions) :
    (tree kind children idiom).KeepsInstructions := by
  intro hstandard hkinds
  obtain ⟨hseen, hs⟩ := standard_tree.1 hstandard
  obtain ⟨hkind, hbelow⟩ := forall_subnodes_tree.1 hkinds
  have hchildren : ∀ c ∈ children, c.idiomatic.Standard ∧ c.idiomatic.seen = c.seen ∧
      c.idiomatic.kept = c.kept := fun c hc => h c hc (hs c hc) (hbelow c hc)
  have hsame : (children.map idiomatic).map Node.seen = children.map Node.seen := by
    rw [List.map_map]
    exact List.map_congr_left fun c hc => (hchildren c hc).2.1
  have hkept : keptOf (children.map idiomatic) = keptOf children :=
    keptOf_congr fun c hc => (hchildren c hc).2.2
  have hplain : ∀ idiom, (tree kind (children.map idiomatic) idiom).Standard := fun _ =>
    standard_tree.2 ⟨by rwa [hsame], by simpa using fun c hc => (hchildren c hc).1⟩
  rw [idiomatic, idiomaticAll_eq_map]
  cases hfound : Idiom.recognize? kind (children.map idiomatic) with
  | none => exact ⟨hplain idiom, rfl, hkept⟩
  | some found =>
    obtain ⟨hfinal, hsight, hfinalKept⟩ :=
      Idiom.recognize?_standsFor (hkind kind rfl) (hplain none) hfound
    exact ⟨hfinal, hsight, hfinalKept.trans hkept⟩

mutual

theorem keepsInstructions : ∀ node : Node, node.KeepsInstructions
  | token _ => fun h _ => ⟨h, rfl, rfl⟩
  | tree _ children _ => keepsInstructions_tree (keepsInstructionsAll children)

theorem keepsInstructionsAll : ∀ nodes : List Node, ∀ n ∈ nodes, n.KeepsInstructions
  | [] => by simp
  | node :: rest => by simpa using ⟨keepsInstructions node, keepsInstructionsAll rest⟩

end

end Node

namespace Grammar

/-- Each rule of a node that is no list gives it the children that idioms count on. -/
theorem isStandard_base : ∀ r ∈ base, r.lhs.isCollected = false →
    r.lhs.isStandard (r.rhs.map Symbol.seen) = true := by
  decide +kernel

theorem isStandard_rule {source : List Instruction} {r : Rule} (h : r ∈ base ++ arityRules source)
    (hplain : r.lhs.isCollected = false) : r.lhs.isStandard (r.rhs.map Symbol.seen) = true := by
  rcases List.mem_append.1 h with h | h
  · exact isStandard_base r h hplain
  · obtain ⟨family, count, -, rfl | rfl⟩ := arityRulesAfter_mem h <;> rfl

end Grammar

namespace Node

/-- Parsed trees have the children that idioms count on. -/
theorem standard_of_parse {start : Nonterminal} {source tokens : List Instruction} {tree : Node}
    (h : parse start (Grammar.arityRules source) tokens = .ok tree) : tree.Standard := by
  intro m hm
  cases m with
  | token i => rfl
  | tree kind children idiom =>
    cases hplain : kind.isCollected with
    | false =>
      obtain ⟨r, hr, rfl, hrhs⟩ := exists_rule h _ hm _ _ _ rfl hplain
      have hrule := Grammar.isStandard_rule hr hplain
      rw [hrhs, List.map_map] at hrule
      exact hrule
    | true =>
      have hfits : kind.fits (children.map role) = true := (shaped_of_parse h).1 _ hm
      cases kind with
      | exprs =>
        refine List.all_eq_true.2 fun s hs => ?_
        obtain ⟨c, hc, rfl⟩ := List.mem_map.1 hs
        obtain ⟨parts, idiom', rfl⟩ := eq_tree_of_role (of_decide_eq_true (all_roles.1 hfits c hc))
        rfl
      | optExprs | varlist | labeledClauses | comeFroms => rfl
      | _ => cases hplain

/-- Recognising idioms in a parsed tree without calls, bindings and expanded loops over lists
merges operations and drops discards. It loses, adds and moves no other instruction. -/
theorem kept_idiomatic_of_parse {start : Nonterminal} {source tokens : List Instruction}
    {tree : Node} (hparse : parse start (Grammar.arityRules source) tokens = .ok tree)
    (hkinds : ∀ m ∈ tree.subnodes, ∀ kind, m.kind? = some kind → kind.isReplaced = false) :
    tree.idiomatic.tokens.filter Instruction.isKept = tree.tokens.filter Instruction.isKept :=
  (keepsInstructions tree (standard_of_parse hparse) hkinds).2.2

end Node

/-- The second element of a list is looked at unless two values are equal. -/
def whenUnequal : List Instruction :=
  [.ofOpcode .varref (some (.symbol "a")) 0, .ofOpcode .varref (some (.symbol "b")) 1,
    .ofOpcode .eqlsign none 2, .ofOpcode .not none 3,
    .ofOpcode .gotoIfNil (some (.symbol "1")) 4, .ofOpcode .varref (some (.symbol "x")) 5,
    .ofOpcode .cdr none 6, .ofOpcode .car none 7, .ofOpcode .discard none 8,
    .ofOpcode .label (some (.symbol "1")) 9, .ofOpcode .constant (some (.symbol "nil")) 9,
    .ofOpcode .ret none 10]

/-- Three idioms are recognised in its tree, one of which loses the discard. -/
theorem kept_idiomatic_of_parse_whenUnequal : ∃ s tree,
    Segmentation.ofInstructions whenUnequal = .ok s ∧
    parse .fnBody (Grammar.arityRules s.annotated) s.annotated = .ok tree ∧
    tree.idiomatic.tokens.length < tree.tokens.length ∧
    (∀ m ∈ tree.subnodes, ∀ kind, m.kind? = some kind → kind.isReplaced = false) ∧
    tree.idiomatic.tokens.filter Instruction.isKept =
      tree.tokens.filter Instruction.isKept := by
  have hparsed : (Segmentation.ofInstructions whenUnequal).toOption.any (fun s =>
      (parse .fnBody (Grammar.arityRules s.annotated) s.annotated).toOption.any fun tree =>
        tree.idiomatic.tokens.length < tree.tokens.length &&
          tree.subnodes.all fun m => m.kind?.all fun kind => !kind.isReplaced) = true := by
    decide +kernel
  obtain ⟨s, hs, hparsed⟩ := exists_ok_of_any hparsed
  obtain ⟨tree, hparse, htree⟩ := exists_ok_of_any hparsed
  obtain ⟨hshorter, hfree⟩ := Bool.and_eq_true_iff.1 htree
  have hkinds : ∀ m ∈ tree.subnodes, ∀ kind, m.kind? = some kind → kind.isReplaced = false := by
    intro m hm kind hkind
    simpa [hkind] using List.all_eq_true.1 hfree m hm
  exact ⟨s, tree, hs, hparse, of_decide_eq_true hshorter, hkinds,
    Node.kept_idiomatic_of_parse hparse hkinds⟩

end ElispLift

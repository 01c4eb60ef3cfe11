import ElispLift.Proofs.Let.Rendering
import ElispLift.Proofs.Let.Scope
import ElispLift.Proofs.Source.Shape
import ElispLift.Proofs.StraightLine.Nodes

/-!
# Headers of forms that bind variables

The code of a form binds its variables in one of two ways. It computes a value and binds it, one
after the other, or it computes all values, which wait on the stack, and binds them afterwards, the
last one first. Both are rendered with the same words. The header of the first way always means what
the code does. The second way binds all variables at once, and its header does that only if no value
has a variable that is bound before it.
-/

namespace ElispLift

open StraightLine Rendering

namespace Node

/-- The nodes that bind variables inside one another, the outer ones first. The first child of each
is the value, and the last one binds it. -/
def nestedBinders : Node → List Node
  | .tree kind [value, inner, name] idiom =>
    .tree kind [value, inner, name] idiom :: nestedBinders inner
  | _ => []

/-- The nodes that bind the variables of a header, in the order in which they are written. -/
def binders (varlist : Node) : List Node :=
  if varlist.isKind .varlistStacked then
    varlist :: ((varlist.child? 1).map nestedBinders).getD []
  else varlist.children

theorem nestedBindings_eq (node : Node) : nestedBindings node =
    node.nestedBinders.map fun binder => (nameText binder.children.getLast?, binder) := by
  fun_induction nestedBinders node with
  | case1 kind value inner name idiom ih =>
    rw [nestedBindings, ih]
    rfl
  | case2 node hnot =>
    rw [nestedBindings.eq_def]
    split
    · exact absurd rfl (hnot _ _ _ _ _)
    · rfl

end Node

namespace Nonterminal

open Grammar

/-- What the nodes of headers consist of, besides lists. -/
def headerLayouts? : Nonterminal → Option (List (List Symbol))
  | letFormStar => some [[n .varlist, n .body, t .unbind], [n .varlist, n .body]]
  | varbind => some [[n .expr, t .varbind], [n .expr, t .stackAccess, t .varbind]]
  | letFormStacked => some [[n .varlistStacked, n .bodyStacked, t .unbind]]
  | varlistStacked => some [[n .expr, n .varlistStackedInner, t .dup, t .varbind]]
  | varlistStackedInner => some [[n .expr, n .varlistStackedInner, t .varbind], []]
  | _ => none

/-- The children of a node of a header are those of one of its layouts, and a list of bindings has
bindings only. -/
def LaidOut (kind : Nonterminal) (children : List Node) : Prop :=
  (∀ layouts, kind.headerLayouts? = some layouts → children.map Node.symbol ∈ layouts) ∧
    (kind = .varlist → ∀ c ∈ children, c.symbol = n .varbind)

end Nonterminal

namespace Grammar

theorem layout_of_rule {source : List Instruction} {r : Rule} (hr : r ∈ base ++ arityRules source) :
    (∀ layouts, r.lhs.headerLayouts? = some layouts → r.rhs ∈ layouts) ∧
      (r.lhs = .varlist → (if r.isAppend then r.rhs.tail else r.rhs) = [n .varbind]) := by
  have hbase : ∀ r ∈ base, (∀ layouts ∈ r.lhs.headerLayouts?, r.rhs ∈ layouts) ∧
      (r.lhs = .varlist → (if r.isAppend then r.rhs.tail else r.rhs) = [n .varbind]) := by
    decide +kernel
  rcases List.mem_append.1 hr with hr | hr
  · exact hbase r hr
  · obtain ⟨family, count, -, rfl | rfl⟩ := arityRulesAfter_mem hr <;> exact ⟨nofun, nofun⟩

theorem laidOut_arrange {source : List Instruction} {r : Rule} {parts : List Derivation}
    {first : Nat} (hfits : Derivation.Fits (base ++ arityRules source) r parts)
    (hparts : Node.EverywhereOf (fun kind children _ _ => kind.LaidOut children) first
      (Derivation.treesOf parts)) :
    r.lhs.LaidOut (Derivation.arrange r (Derivation.treesOf parts)) := by
  have hsymbols := (Derivation.symbols_treesOf parts).trans hfits.2
  obtain ⟨hlayout, hlist⟩ := layout_of_rule hfits.1
  refine ⟨fun layouts hlayouts => ?_, fun hkind => ?_⟩
  · have hplain : (r.lhs.isCollected && r.isAppend) = false := by
      cases hlhs : r.lhs <;> first
        | rfl
        | rw [hlhs] at hlayouts; cases hlayouts
    rw [arrange_of_plain hplain, hsymbols]
    exact hlayout layouts hlayouts
  · have hrule := hlist hkind
    have hitems : ∀ {nodes : List Node}, nodes.map Node.symbol = [n .varbind] →
        ∀ c ∈ nodes, c.symbol = n .varbind := fun he c hc =>
      List.mem_singleton.1 (he ▸ List.mem_map_of_mem hc)
    cases happend : r.isAppend with
    | false =>
      rw [happend] at hrule
      rw [arrange_of_plain (by rw [happend, Bool.and_false])]
      exact hitems (hsymbols.trans hrule)
    | true =>
      rw [happend] at hrule
      obtain ⟨hplain, -⟩ | ⟨items, rest, htrees, he⟩ := Derivation.arrange_cases hfits
      · rw [hkind, happend] at hplain
        cases hplain
      rw [htrees] at hparts hsymbols
      have hrest : rest.map Node.symbol = [n .varbind] := by
        rw [← hrule, if_pos rfl, ← hsymbols]
        rfl
      rw [he]
      exact List.forall_mem_append.2 ⟨hparts.1.1.2 hkind, hitems hrest⟩

end Grammar

namespace Node

variable {node : Node} {kind : Nonterminal} {children : List Node} {idiom : Option Idiom}

/-- The headers in the tree are laid out as the rules have them. -/
def LaidOut (node : Node) : Prop :=
  ∀ m ∈ node.subnodes, ∀ kind, m.kind? = some kind → kind.LaidOut m.children

theorem laidOut_tree : (tree kind children idiom).LaidOut ↔
    kind.LaidOut children ∧ ∀ c ∈ children, c.LaidOut := by
  rw [LaidOut, forall_subnodes_tree]
  simp [kind?, Node.children, LaidOut]

theorem laidOut_of_derivation {source : List Instruction} {d : Derivation} {first : Nat}
    (h : d.Everywhere (fun r parts _ _ =>
      Derivation.Fits (Grammar.base ++ Grammar.arityRules source) r parts) first) :
    d.tree.LaidOut := by
  have hall := Derivation.Everywhere.tree (p := fun kind children _ _ => kind.LaidOut children)
    (fun _ _ _ _ hfits => hfits) (fun _ _ _ _ hfits => Grammar.laidOut_arrange hfits) h
  exact hall.subnodes (fun _ => nofun) fun _ _ _ _ _ hp _ hkind => by
    cases hkind
    exact hp

theorem eq_token_of_symbol {op : Opcode} (h : node.symbol = Grammar.t op) :
    ∃ i, node = token i ∧ i.kind = .fixed op := by
  cases node with
  | token i => exact ⟨i, rfl, Symbol.terminal.inj h⟩
  | tree kind' children idiom => cases h

namespace LaidOut

/-- A form starts with a list of bindings and a body. -/
theorem varlist_body (h : (tree kind children idiom).LaidOut)
    (hkind : kind = .letFormStar ∨ kind = .letFormStacked) :
    ∃ list items idiom' body rest, children = tree list items idiom' :: body :: rest ∧
      (kind = .letFormStar ∧ list = .varlist ∨
        kind = .letFormStacked ∧ list = .varlistStacked) := by
  have hlayout := (laidOut_tree.1 h).1.1
  have hchildren : ∃ list second rest,
      children.map symbol = .nonterminal list :: second :: rest ∧
      (kind = .letFormStar ∧ list = .varlist ∨
        kind = .letFormStacked ∧ list = .varlistStacked) := by
    rcases hkind with rfl | rfl
    · rcases List.mem_cons.1 (hlayout _ rfl) with hchildren | hchildren
      · exact ⟨_, _, _, hchildren, .inl ⟨rfl, rfl⟩⟩
      · exact ⟨_, _, _, List.mem_singleton.1 hchildren, .inl ⟨rfl, rfl⟩⟩
    · exact ⟨_, _, _, List.mem_singleton.1 (hlayout _ rfl), .inr ⟨rfl, rfl⟩⟩
  obtain ⟨list, second, rest, hchildren, hlist⟩ := hchildren
  obtain ⟨varlist, others, rfl, hvarlist, hothers⟩ := List.map_eq_cons_iff.1 hchildren
  obtain ⟨body, rest, rfl, -⟩ := List.map_eq_cons_iff.1 hothers
  obtain ⟨items, idiom', rfl⟩ := eq_tree_of_symbol hvarlist
  exact ⟨list, items, idiom', body, rest, rfl, hlist⟩

theorem varlist (h : (tree .varlist children idiom).LaidOut) :
    ∀ c ∈ children, ∃ parts idiom', c = tree .varbind parts idiom' := fun c hc =>
  eq_tree_of_symbol ((laidOut_tree.1 h).1.2 rfl c hc)

/-- A marker may stand between a value and its name. -/
theorem varbind (h : (tree .varbind children idiom).LaidOut) :
    ∃ (value : Node) (markers : List Instruction) (i : Instruction),
      children = value :: (markers.map token ++ [token i]) ∧
        ∀ marker ∈ markers, marker.kind = .fixed .stackAccess := by
  rcases List.mem_cons.1 ((laidOut_tree.1 h).1.1 _ rfl) with hchildren | hchildren
  · obtain ⟨value, rest, rfl, -, hrest⟩ := List.map_eq_cons_iff.1 hchildren
    obtain ⟨last, rfl, hlast⟩ := List.map_eq_singleton_iff.1 hrest
    obtain ⟨i, rfl, -⟩ := eq_token_of_symbol hlast
    exact ⟨value, [], i, rfl, by simp⟩
  · obtain ⟨value, rest, rfl, -, hrest⟩ :=
      List.map_eq_cons_iff.1 (List.mem_singleton.1 hchildren)
    obtain ⟨access, rest, rfl, haccess, hrest⟩ := List.map_eq_cons_iff.1 hrest
    obtain ⟨last, rfl, hlast⟩ := List.map_eq_singleton_iff.1 hrest
    obtain ⟨marker, rfl, hmarker⟩ := eq_token_of_symbol haccess
    obtain ⟨i, rfl, -⟩ := eq_token_of_symbol hlast
    exact ⟨value, [marker], i, rfl, by simpa using hmarker⟩

/-- The values of a stacked list wait on the stack while the inner ones are computed. -/
theorem varlistStacked (h : (tree .varlistStacked children idiom).LaidOut) :
    ∃ value parts idiom' copy i, copy.kind = .fixed .dup ∧
      children = [value, tree .varlistStackedInner parts idiom', token copy, token i] := by
  obtain ⟨value, rest, rfl, -, hrest⟩ :=
    List.map_eq_cons_iff.1 (List.mem_singleton.1 ((laidOut_tree.1 h).1.1 _ rfl))
  obtain ⟨inner, rest, rfl, hinner, hrest⟩ := List.map_eq_cons_iff.1 hrest
  obtain ⟨dup, rest, rfl, hdup, hrest⟩ := List.map_eq_cons_iff.1 hrest
  obtain ⟨last, rfl, hlast⟩ := List.map_eq_singleton_iff.1 hrest
  obtain ⟨parts, idiom', rfl⟩ := eq_tree_of_symbol hinner
  obtain ⟨copy, rfl, hcopy⟩ := eq_token_of_symbol hdup
  obtain ⟨i, rfl, -⟩ := eq_token_of_symbol hlast
  exact ⟨value, parts, idiom', copy, i, hcopy, rfl⟩

theorem varlistStackedInner (h : (tree .varlistStackedInner children idiom).LaidOut) :
    children = [] ∨ ∃ value parts idiom' i,
      children = [value, tree .varlistStackedInner parts idiom', token i] := by
  rcases List.mem_cons.1 ((laidOut_tree.1 h).1.1 _ rfl) with hchildren | hchildren
  · obtain ⟨value, rest, rfl, -, hrest⟩ := List.map_eq_cons_iff.1 hchildren
    obtain ⟨inner, rest, rfl, hinner, hrest⟩ := List.map_eq_cons_iff.1 hrest
    obtain ⟨last, rfl, hlast⟩ := List.map_eq_singleton_iff.1 hrest
    obtain ⟨parts, idiom', rfl⟩ := eq_tree_of_symbol hinner
    obtain ⟨i, rfl, -⟩ := eq_token_of_symbol hlast
    exact .inr ⟨value, parts, idiom', i, rfl⟩
  · exact .inl (List.map_eq_nil_iff.1 (List.mem_singleton.1 hchildren))

end LaidOut

end Node

namespace Let

variable {V : Type} {M : Meaning V} {env : String → V} {node : Node} {nodes children : List Node}
  {b : Binding} {bs : List Binding} {kind : Nonterminal} {idiom : Option Idiom} {i : Instruction}

/-- The node computes the value of the binding, and its last instruction binds the variable. -/
def Binding.MadeBy (b : Binding) (node : Node) : Prop :=
  b.value.WellFormed ∧ ∃ tree i, node.children.head? = some tree ∧ b.value.Shows tree ∧
    node.children.getLast? = some (.token i) ∧ Spells i (.fixed .varbind, some (.symbol b.name))

theorem Binding.MadeBy.parts {tree : Node} (between : List Node)
    (h : b.MadeBy (.tree kind (tree :: (between ++ [.token i])) idiom)) :
    b.value.WellFormed ∧ b.value.Shows tree ∧
      Spells i (.fixed .varbind, some (.symbol b.name)) := by
  obtain ⟨hwf, tree', i', hhead, htree, hlast, hi⟩ := h
  rw [Node.children, List.head?_cons] at hhead
  rw [Node.children, ← List.cons_append, List.getLast?_concat] at hlast
  cases hhead
  cases hlast
  exact ⟨hwf, htree, hi⟩

/-! ### Running headers -/

/-- The instructions of a value put it onto the stack. -/
theorem exec_value {e : Expr} {tree : Node} (hwf : e.WellFormed) (h : e.Shows tree)
    (stack : List V) :
    M.exec tree.tokens ⟨stack, env⟩ = some ⟨value M env e :: stack, env⟩ := by
  refine exec_expr e stack hwf ?_
  have hspells := (codes_expr e hwf h).spells
  rwa [Node.tokensOf, Node.tokensOf, List.append_nil] at hspells

theorem exec_markers {markers : List Instruction}
    (h : ∀ marker ∈ markers, marker.kind = .fixed .stackAccess) (s : Machine V) :
    M.exec (Node.tokensOf (markers.map .token)) s = some s := by
  induction markers with
  | nil => rfl
  | cons marker markers ih =>
    obtain ⟨hmarker, hrest⟩ := List.forall_mem_cons.1 h
    change (M.step marker s).bind _ = _
    rw [Meaning.step, hmarker]
    exact ih hrest

theorem exec_varbind (h : (Node.tree .varbind children idiom).LaidOut)
    (hb : b.MadeBy (.tree .varbind children idiom)) (stack : List V) :
    M.exec (Node.tree .varbind children idiom).tokens ⟨stack, env⟩ =
      some ⟨stack, bound M env env b⟩ := by
  obtain ⟨tree, markers, i, rfl, hmarkers⟩ := h.varbind
  obtain ⟨hwf, htree, hi⟩ := hb.parts
  rw [Node.tokens, Node.tokensOf, Node.tokensOf_append,
    Meaning.exec_of_append (exec_value hwf htree stack),
    Meaning.exec_of_append (exec_markers hmarkers _)]
  exact (Meaning.exec_single i _).trans (step_varbind hi)

/-- Bindings in a list are made one after the other. -/
theorem exec_varlist (h : (Node.tree .varlist nodes idiom).LaidOut)
    (hbs : List.Forall₂ Binding.MadeBy bs nodes) (stack : List V) :
    M.exec (Node.tokensOf nodes) ⟨stack, env⟩ = some ⟨stack, sequentially M env bs⟩ := by
  have hkinds := h.varlist
  replace h := (Node.laidOut_tree.1 h).2
  induction hbs generalizing env with
  | nil => rfl
  | @cons b node bs nodes hb _ ih =>
    obtain ⟨⟨parts, idiom', rfl⟩, hrest⟩ := List.forall_mem_cons.1 hkinds
    obtain ⟨hnode, hnodes⟩ := List.forall_mem_cons.1 h
    rw [Node.tokensOf, Meaning.exec_of_append (exec_varbind hnode hb stack)]
    exact ih hrest hnodes

/-- Inner bindings are made after all values are computed, the last one first. -/
theorem exec_nested {parts : List Node} (h : (Node.tree .varlistStackedInner parts idiom).LaidOut)
    (hbs : List.Forall₂ Binding.MadeBy bs
      (Node.tree .varlistStackedInner parts idiom).nestedBinders) (stack : List V) :
    M.exec (Node.tokensOf parts) ⟨stack, env⟩ =
      some ⟨stack, bs.reverse.foldl (bound M env) env⟩ := by
  induction bs generalizing parts idiom stack with
  | nil =>
    rcases h.varlistStackedInner with rfl | ⟨tree, parts, idiom', i, rfl⟩
    · rfl
    · cases hbs
  | cons b bs ih =>
    rcases h.varlistStackedInner with rfl | ⟨tree, parts, idiom', i, rfl⟩
    · cases hbs
    obtain ⟨hb, hbs⟩ := List.forall₂_cons.1 hbs
    obtain ⟨hwf, htree, hi⟩ := hb.parts [_]
    have hinner := ih ((Node.laidOut_tree.1 h).2 _ (List.mem_cons_of_mem _ List.mem_cons_self)) hbs
      (value M env b.value :: stack)
    rw [Node.tokensOf, Meaning.exec_of_append (exec_value hwf htree stack), Node.tokensOf,
      Node.tokens, Meaning.exec_of_append hinner, List.reverse_cons, List.foldl_append]
    exact (Meaning.exec_single i _).trans (step_varbind hi)

/-- The first variable is bound at last, and a copy of its value stays on the stack. -/
theorem exec_varlistStacked (h : (Node.tree .varlistStacked children idiom).LaidOut)
    (hbs : List.Forall₂ Binding.MadeBy bs (Node.tree .varlistStacked children idiom).binders)
    (stack : List V) : ∃ v, M.exec (Node.tokensOf children) ⟨stack, env⟩ =
      some ⟨v :: stack, bs.reverse.foldl (bound M env) env⟩ := by
  obtain ⟨tree, parts, idiom', copy, i, hcopy, rfl⟩ := h.varlistStacked
  cases bs with
  | nil => cases hbs
  | cons b bs =>
    obtain ⟨hb, hbs⟩ := List.forall₂_cons.1 hbs
    obtain ⟨hwf, htree, hi⟩ := hb.parts [_, _]
    have hlist := (Node.laidOut_tree.1 h).2 _ (List.mem_cons_of_mem _ List.mem_cons_self)
    have hinner : M.exec _ ⟨value M env b.value :: stack, env⟩ = _ := exec_nested hlist hbs _
    refine ⟨value M env b.value, ?_⟩
    rw [Node.tokensOf, Meaning.exec_of_append (exec_value hwf htree stack), Node.tokensOf,
      Node.tokens, Meaning.exec_of_append hinner, List.reverse_cons, List.foldl_append]
    change (M.step copy _).bind _ = _
    rw [Meaning.step, hcopy]
    exact (Meaning.exec_single i _).trans (step_varbind hi)

/-! ### Rendering headers -/

theorem write_append (s t : String) : Rendering.write (s ++ t) = (do write s; write t) := by
  funext p
  change some ((), { p with text := p.text ++ (s ++ t) }) =
    some ((), { p with text := p.text ++ s ++ t })
  rw [String.append_assoc]

/-- The rendering of a header, up to the parenthesis behind its bindings. -/
def Header.rendering (h : Header) (bindings : Rendering Unit) : Rendering Unit := do
  write (h.word ++ "(")
  align
  bindings
  closeForm

/-- A header is written at any column if its bindings are written below one another. -/
theorem Header.laysAt_rendering {h : Header} {bindings : Rendering Unit}
    (hbindings : ∀ column, LaysAt column (Text.spaces column)
      (("\n" ++ Text.spaces column).intercalate (h.bindings.map (·.lisp))) bindings)
    (column : Nat) (indent : String) :
    LaysAt column indent (h.lisp column) (h.rendering bindings) := by
  have hline : '\n' ∉ (h.word ++ "(").toList := by
    rw [word]
    split <;> decide
  have hcolumn : column + h.word.utf8ByteSize + 1 = column + (h.word ++ "(").utf8ByteSize := by
    rw [String.utf8ByteSize_append, ← Nat.add_assoc]
    rfl
  rw [lisp, hcolumn, String.append_assoc]
  exact (((Writes.write _).lays indent).at column).append hline (hbindings _).aligned

theorem Binding.MadeBy.nameText_eq (h : b.MadeBy node) :
    Node.nameText node.children.getLast? = b.name := by
  obtain ⟨-, tree, i, -, -, hlast, hi⟩ := h
  simp [hlast, Node.nameText, Node.token?, Instruction.operandText?, hi.2 _ rfl, Operand.text?]

theorem size_le_of_head? {tree : Node} (h : node.children.head? = some tree) :
    tree.size < node.size := by
  cases node with
  | token i => cases h
  | tree kind children idiom =>
    obtain ⟨rest, rfl⟩ := List.head?_eq_some_iff.1 h
    exact Nat.lt_succ_of_le (Nat.le_add_right ..)

/-- The value of a binding is written where the first child of its node is rendered. -/
theorem Binding.MadeBy.writes_value (h : b.MadeBy node) {levels : Nat}
    (hlevels : node.size ≤ levels + 1) :
    Writes false b.value.lisp (child (Rendering.node levels) node 0) := by
  obtain ⟨hwf, tree, -, hhead, htree, -⟩ := h
  have hsize := size_le_of_head? hhead
  rw [child, Node.child?, ← List.head?_eq_getElem?, hhead]
  exact prints_expr b.value hwf htree levels (by omega)

theorem Binding.MadeBy.prints (h : b.MadeBy (.tree .varbind children idiom)) :
    Prints false b.lisp (.tree .varbind children idiom) := by
  intro levels hlevels
  obtain ⟨levels, rfl⟩ := Nat.exists_eq_add_of_le' (Nat.le_trans (Nat.le_add_left 1 _) hlevels)
  have hname := h.nameText_eq
  have hvalue := h.writes_value hlevels
  have hwrites := (Writes.write ("(" ++ b.name ++ " ")).append (hvalue.append (.write ")"))
  rw [Binding.lisp, @String.append_assoc _ b.value.lisp]
  rw [← hname] at hwrites ⊢
  exact hwrites

/-- The bindings of a list stand below one another. -/
theorem laysAt_varlist (h : (Node.tree .varlist nodes idiom).LaidOut)
    (hbs : List.Forall₂ Binding.MadeBy bs nodes) {levels : Nat}
    (hlevels : Node.sizeSum nodes ≤ levels) (column : Nat) :
    LaysAt column (Text.spaces column) (("\n" ++ Text.spaces column).intercalate
      (bs.map (·.lisp))) (eachOnLine (Rendering.node levels) nodes) := by
  have hprint : AllPrint nodes (bs.map (·.lisp)) := by
    have hkinds := h.varlist
    clear hlevels h
    induction hbs with
    | nil => exact .nil
    | cons hb _ ih =>
      obtain ⟨⟨parts, idiom', rfl⟩, hrest⟩ := List.forall_mem_cons.1 hkinds
      exact .cons hb.prints (ih hrest)
  exact laysAt_eachOnLine ((hprint.writes hlevels).imp fun _ _ hwrites => (hwrites.lays _).at _)

/-- Bindings below one another. -/
theorem laysAt_eachBinding {render : Node → Rendering Unit} {column : Nat}
    {entries : List (String × Node)}
    (h : List.Forall₂ (fun b entry => entry.1 = b.name ∧
      Writes false b.value.lisp (child render entry.2 0)) bs entries) :
    LaysAt column (Text.spaces column) (("\n" ++ Text.spaces column).intercalate
      (bs.map (·.lisp))) (eachBinding render entries) := by
  induction h with
  | nil => exact (Writes.nothing.lays _).at _
  | @cons b entry bs entries hentry hrest ih =>
    obtain ⟨name, node⟩ := entry
    obtain ⟨rfl, hvalue⟩ := hentry
    have hfirst : Writes false b.lisp (do
        write ("(" ++ b.name ++ " ")
        child render node 0
        write ")") := by
      rw [Binding.lisp, String.append_assoc]
      exact (Writes.write _).append (hvalue.append (.write ")"))
    have hall : eachBinding render ((b.name, node) :: entries) = (do
        (do write ("(" ++ b.name ++ " "); child render node 0; write ")")
        if !entries.isEmpty then do
          newline
          eachBinding render entries
        else eachBinding render entries) := by
      simp only [eachBinding, bind_assoc]
    rw [hall]
    cases hrest with
    | nil =>
      have hend := (hfirst.append Writes.nothing).lays (Text.spaces column)
      rw [String.append_empty] at hend
      exact hend.at column
    | cons _ _ =>
      rw [List.map_cons, List.map_cons, String.intercalate_cons_cons, String.append_assoc]
      refine ((hfirst.lays _).at column).append_lays
        (LaysAt.newline (not_newline_spaces column) ?_)
      rwa [utf8ByteSize_spaces]

/-- What is written behind the header. The body of a stacked form finds the first variable on the
stack. -/
def behindHeader (kind : Nonterminal) (bs : List Binding) (body : Rendering Unit) :
    Rendering Unit :=
  if kind = .letFormStar then lastPart body
  else do
    let height := (← get).values.length
    push (.text ((bs.head?.map (·.name)).getD missingText))
    lastPart body
    truncate height

theorem word_ofBindings (bs : List Binding) :
    (Header.ofBindings bs).word = if bs.length = 1 then "let " else "let* " := by
  rw [Header.word, Header.ofBindings]
  by_cases hone : bs.length = 1 <;> simp [hone]

theorem rendering_letStar (hbs : List.Forall₂ Binding.MadeBy bs nodes)
    (hvarlist : node.child? 0 = some (.tree .varlist nodes idiom))
    (render : Node → Rendering Unit) :
    letStar render node = (do
      openForm
      (Header.ofBindings bs).rendering (eachOnLine render nodes)
      behindHeader .letFormStar bs (child render node 1)) := by
  have hword : (if (Node.tree .varlist nodes idiom).children.length = 1 then "let " else "let* ") =
      (Header.ofBindings bs).word := by rw [word_ofBindings, hbs.length_eq, Node.children]
  rw [letStar, hvarlist]
  dsimp only
  rw [hword]
  simp only [Node.children, Header.rendering, write_append, bind_assoc, behindHeader, if_pos]

/-- The names of a stacked header, each with the node whose first child is its value. -/
def entriesOf (varlist : Node) : List (String × Node) :=
  (Node.nameText (varlist.child? 3), varlist) ::
    ((varlist.child? 1).map nestedBindings).getD []

theorem entriesOf_eq (h : (Node.tree .varlistStacked children idiom).LaidOut) :
    entriesOf (.tree .varlistStacked children idiom) =
      (Node.tree .varlistStacked children idiom).binders.map fun binder =>
        (Node.nameText binder.children.getLast?, binder) := by
  obtain ⟨tree, parts, idiom', copy, i, hcopy, rfl⟩ := h.varlistStacked
  exact congrArg (List.cons _) (Node.nestedBindings_eq _)

theorem rendering_letStacked (h : (Node.tree .varlistStacked children idiom).LaidOut)
    (hbs : List.Forall₂ Binding.MadeBy bs (Node.tree .varlistStacked children idiom).binders)
    (hvarlist : node.child? 0 = some (.tree .varlistStacked children idiom))
    (render : Node → Rendering Unit) :
    letStacked render node = (do
      openForm
      (Header.ofBindings bs).rendering
        (eachBinding render (entriesOf (.tree .varlistStacked children idiom)))
      behindHeader .letFormStacked bs (child render node 1)) := by
  obtain ⟨tree, parts, idiom', copy, i, -, rfl⟩ := h.varlistStacked
  cases bs with
  | nil => cases hbs
  | cons b bs =>
    obtain ⟨hb, hinner⟩ := List.forall₂_cons.1 hbs
    have hname : Node.nameText (some (.token i)) = b.name := hb.nameText_eq
    have hlength : (nestedBindings (.tree .varlistStackedInner parts idiom')).length =
        bs.length := by
      rw [Node.nestedBindings_eq, List.length_map]
      exact hinner.length_eq.symm
    have hword : (if (nestedBindings (.tree .varlistStackedInner parts idiom')).isEmpty then "let ("
        else "let* (") = (Header.ofBindings (b :: bs)).word ++ "(" := by
      rw [word_ofBindings, List.length_cons, ← hlength]
      cases nestedBindings (.tree .varlistStackedInner parts idiom') <;> rfl
    have hentries : entriesOf (.tree .varlistStacked [tree,
        .tree .varlistStackedInner parts idiom', .token copy, .token i] idiom) =
        (b.name, _) :: nestedBindings (.tree .varlistStackedInner parts idiom') :=
      congrArg (fun name => (name, _) :: nestedBindings _) hname
    rw [letStacked, hvarlist, hentries, ← hname]
    simp only [Header.rendering, bind_assoc, behindHeader, List.head?_cons, Option.map_some,
      Option.getD_some, reduceCtorEq, if_false, ← hword, ← hname]
    rfl

/-- The names that are written belong to the bindings, and so do the values. -/
theorem writes_entries {nodes : List Node} (hbs : List.Forall₂ Binding.MadeBy bs nodes)
    {levels : Nat} (hlevels : ∀ node ∈ nodes, node.size ≤ levels + 1) :
    List.Forall₂ (fun b entry => entry.1 = b.name ∧
        Writes false b.value.lisp (child (Rendering.node levels) entry.2 0)) bs
      (nodes.map fun binder => (Node.nameText binder.children.getLast?, binder)) := by
  induction hbs with
  | nil => exact .nil
  | cons hb _ ih =>
    obtain ⟨hnode, hnodes⟩ := List.forall_mem_cons.1 hlevels
    exact .cons ⟨hb.nameText_eq, hb.writes_value hnode⟩ (ih hnodes)

theorem size_le_of_nestedBinders (node : Node) :
    ∀ binder ∈ node.nestedBinders, binder.size ≤ node.size := by
  fun_induction Node.nestedBinders node with
  | case1 kind tree inner name idiom ih =>
    refine List.forall_mem_cons.2
      ⟨Nat.le_refl _, fun binder hmem => Nat.le_trans (ih binder hmem) ?_⟩
    simp only [Node.size, Node.sizeSum]
    omega
  | case2 => simp

theorem size_le_of_binders (h : (Node.tree .varlistStacked children idiom).LaidOut) :
    ∀ binder ∈ (Node.tree .varlistStacked children idiom).binders,
      binder.size ≤ (Node.tree .varlistStacked children idiom).size := by
  obtain ⟨tree, parts, idiom', copy, i, -, rfl⟩ := h.varlistStacked
  refine List.forall_mem_cons.2 ⟨Nat.le_refl _, fun binder hmem => ?_⟩
  refine Nat.le_trans (size_le_of_nestedBinders _ binder hmem) ?_
  simp only [Node.size, Node.sizeSum]
  omega

/-- A form is rendered with a header of its bindings. -/
theorem exists_rendering (h : (Node.tree kind children idiom).LaidOut)
    (hkind : kind = .letFormStar ∨ kind = .letFormStacked) {varlist : Node}
    (hvarlist : (Node.tree kind children idiom).child? 0 = some varlist)
    (hbs : List.Forall₂ Binding.MadeBy bs varlist.binders) {levels : Nat}
    (hlevels : (Node.tree kind children idiom).size ≤ levels + 1) :
    ∃ bindings : Rendering Unit,
      Rendering.node (levels + 1) (.tree kind children idiom) = (do
        openForm
        (Header.ofBindings bs).rendering bindings
        behindHeader kind bs
          (child (Rendering.node levels) (.tree kind children idiom) 1)) ∧
      ∀ column indent, LaysAt column indent ((Header.ofBindings bs).lisp column)
        ((Header.ofBindings bs).rendering bindings) := by
  obtain ⟨list, items, idiom', body, rest, rfl, hlists⟩ := h.varlist_body hkind
  have hlist := (Node.laidOut_tree.1 h).2 _ List.mem_cons_self
  cases hvarlist
  simp only [Node.size, Node.sizeSum] at hlevels
  rcases hlists with ⟨rfl, rfl⟩ | ⟨rfl, rfl⟩
  · have hbs : List.Forall₂ Binding.MadeBy bs items := hbs
    have hchild :
        (Node.tree .letFormStar (.tree .varlist items idiom' :: body :: rest) idiom).child? 0 =
          some (.tree .varlist items idiom') := rfl
    have hnode := rendering_letStar hbs hchild (Rendering.node levels)
    refine ⟨_, hnode, Header.laysAt_rendering fun column => ?_⟩
    exact laysAt_varlist hlist hbs (by omega) column
  · have hsizes : ∀ node ∈ (Node.tree .varlistStacked items idiom').binders,
        node.size ≤ levels + 1 := fun node hnode =>
      Nat.le_trans (size_le_of_binders hlist node hnode) (by rw [Node.size]; omega)
    have hentries := writes_entries hbs hsizes
    have hchild : (Node.tree .letFormStacked (.tree .varlistStacked items idiom' :: body :: rest)
        idiom).child? 0 = some (.tree .varlistStacked items idiom') := rfl
    have hnode := rendering_letStacked hlist hbs hchild (Rendering.node levels)
    refine ⟨_, hnode, Header.laysAt_rendering fun column => ?_⟩
    rw [entriesOf_eq hlist]
    exact laysAt_eachBinding hentries

/-- A form is rendered with a header that binds one variable after the other. If the code binds each
variable when its value is computed, the header gives all of them the values that the code does. If
the values wait on the stack, the code gives distinct variables the values that they have where none
is bound, and the header does so only for values without variables that are bound before them. -/
theorem header_of_derivation {source : List Instruction} {d : Derivation} {varlist : Node}
    (hd : d.Everywhere (fun r parts _ _ =>
      Derivation.Fits (Grammar.base ++ Grammar.arityRules source) r parts) 0)
    (hsymbol : d.symbol = .nonterminal kind)
    (hkind : kind = .letFormStar ∨ kind = .letFormStacked)
    (hvarlist : d.tree.child? 0 = some varlist)
    (hbs : List.Forall₂ Binding.MadeBy bs varlist.binders) :
    (∀ levels, d.tree.size ≤ levels + 1 → ∃ bindings : Rendering Unit,
      Rendering.node (levels + 1) d.tree = (do
        openForm
        (Header.ofBindings bs).rendering bindings
        behindHeader kind bs (child (Rendering.node levels) d.tree 1)) ∧
      ∀ column indent, LaysAt column indent ((Header.ofBindings bs).lisp column)
        ((Header.ofBindings bs).rendering bindings)) ∧
    ∀ (V : Type) (M : Meaning V) (stack : List V) (env : String → V), ∃ stack' after,
      M.exec varlist.tokens ⟨stack, env⟩ = some ⟨stack', after⟩ ∧
      (kind = .letFormStar → after = (Header.ofBindings bs).scope M env) ∧
      (kind = .letFormStacked → Distinct bs → after = atOnce M env bs ∧
        (Independent bs → after = (Header.ofBindings bs).scope M env)) := by
  have h := Node.laidOut_of_derivation hd
  obtain ⟨children, idiom, htree⟩ :=
    Node.eq_tree_of_symbol ((Derivation.symbol_tree d).trans hsymbol)
  rw [htree] at h hvarlist ⊢
  refine ⟨fun levels hlevels => exists_rendering h hkind hvarlist hbs hlevels,
    fun V M stack env => ?_⟩
  obtain ⟨list, items, idiom', body, rest, rfl, hlists⟩ := h.varlist_body hkind
  have hlist := (Node.laidOut_tree.1 h).2 _ List.mem_cons_self
  cases hvarlist
  rw [Header.scope_ofBindings]
  rcases hlists with ⟨rfl, rfl⟩ | ⟨rfl, rfl⟩
  · exact ⟨stack, _, exec_varlist hlist hbs stack, fun _ => rfl, nofun⟩
  · obtain ⟨v, hexec⟩ := exec_varlistStacked hlist hbs stack
    refine ⟨v :: stack, _, hexec, nofun, fun _ hdistinct => ?_⟩
    rw [foldl_reverse_bound M env hdistinct]
    exact ⟨rfl, fun hindependent => (sequentially_eq_atOnce M env hindependent).symm⟩

section

open Grammar

/-- A variable as an expression. -/
def variableAt (name : String) (offset : Nat) : Derivation :=
  .node ⟨.expr, [t .varref]⟩ [.leaf (.ofOpcode .varref (some (.symbol name)) offset)]

/-- The variable `x` gets the value of `y`, and `z` the value of `name`. The value of `x` stays on
the stack until the body takes it. -/
def bindTwo (name : String) : Derivation :=
  let inner := .node ⟨.varlistStackedInner, [n .expr, n .varlistStackedInner, t .varbind]⟩
    [variableAt name 1, .node ⟨.varlistStackedInner, []⟩ [],
      .leaf (.ofOpcode .varbind (some (.symbol "z")) 2)]
  let varlist := .node ⟨.varlistStacked, [n .expr, n .varlistStackedInner, t .dup, t .varbind]⟩
    [variableAt "y" 0, inner, .leaf (.ofOpcode .dup none 3),
      .leaf (.ofOpcode .varbind (some (.symbol "x")) 4)]
  let rest := .node ⟨.exprs, [n .exprStmt]⟩ [.node ⟨.exprStmt, [n .expr, n .optDiscard]⟩
    [variableAt "z" 7, .node ⟨.optDiscard, []⟩ []]]
  let body := .node ⟨.bodyStacked, [n .exprStacked, n .optDiscard, n .exprs]⟩
    [.node ⟨.exprStacked, [t .dup]⟩ [.leaf (.ofOpcode .dup none 5)],
      .node ⟨.optDiscard, [t .discard]⟩ [.leaf (.ofOpcode .discard none 6)], rest]
  .node ⟨.letFormStacked, [n .varlistStacked, n .bodyStacked, t .unbind]⟩
    [varlist, body, .leaf (.ofOpcode .unbind (some (.int 2)) 8)]

end

/-- Every variable that is not bound has its own name as its value. -/
def ownNames : Meaning String := ⟨Operand.toText, fun _ _ => ""⟩

/-- The bindings of `bindTwo`. -/
def twoBindings (name : String) : List Binding :=
  [⟨"x", .reference (.symbol "y")⟩, ⟨"z", .reference (.symbol name)⟩]

theorem twoBindings_madeBy (name : String) (hname : name ≠ "") : ∃ varlist,
    (bindTwo name).tree.child? 0 = some varlist ∧
      List.Forall₂ Binding.MadeBy (twoBindings name) varlist.binders := by
  have hmade : ∀ {b : Binding} {node tree : Node} {i : Instruction}, b.value.WellFormed →
      node.children.head? = some tree → b.value.Shows tree →
      node.children.getLast? = some (.token i) →
      Spells i (.fixed .varbind, some (.symbol b.name)) → b.MadeBy node :=
    fun hwf hhead htree hlast hi => ⟨hwf, _, _, hhead, htree, hlast, hi⟩
  have hspells : ∀ (op : Opcode) (operand : Operand) (offset : Nat),
      Spells (.ofOpcode op (some operand) offset) (.fixed op, some operand) :=
    fun _ _ _ => ⟨rfl, fun _ => id⟩
  refine ⟨_, rfl, .cons ?_ (.cons ?_ .nil)⟩
  · exact hmade (show "y" ≠ "" by decide) rfl ⟨_, hspells .varref _ 0, rfl⟩ rfl
      (hspells .varbind _ 4)
  · exact hmade hname rfl ⟨_, hspells .varref _ 1, rfl⟩ rfl (hspells .varbind _ 2)

theorem bindTwo_sound (name : String) : (bindTwo name).Everywhere (fun r parts _ _ =>
    Derivation.Fits (Grammar.base ++ Grammar.arityRules []) r parts) 0 := by
  repeat' apply And.intro
  all_goals trivial

/-- A value without a variable of the header. -/
theorem header_of_derivation_bindTwo : (bindTwo "w").symbol = .nonterminal .letFormStacked ∧
    ∃ varlist, (bindTwo "w").tree.child? 0 = some varlist ∧
      List.Forall₂ Binding.MadeBy (twoBindings "w") varlist.binders ∧
      ∃ stack after, ownNames.exec varlist.tokens ⟨[], id⟩ = some ⟨stack, after⟩ ∧
        after = (Header.ofBindings (twoBindings "w")).scope ownNames id := by
  obtain ⟨varlist, hvarlist, hbs⟩ := twoBindings_madeBy "w" (by decide)
  obtain ⟨-, hexec⟩ := header_of_derivation (bindTwo_sound "w") rfl (.inr rfl) hvarlist hbs
  obtain ⟨stack, after, hexec, -, hscope⟩ := hexec String ownNames [] id
  exact ⟨rfl, varlist, hvarlist, hbs, stack, after, hexec,
    (hscope rfl (by decide)).2 (by decide)⟩

/-- The code computes the value of `z` before `x` is bound, and `let*` behind that. -/
theorem bindTwo_bound_before : (bindTwo "x").Everywhere (fun r parts _ _ =>
      Derivation.Fits (Grammar.base ++ Grammar.arityRules []) r parts) 0 ∧
    (bindTwo "x").symbol = .nonterminal .letFormStacked ∧
    (∃ source, (bindTwo "x").tree.render "" = .ok source ∧
      source.text = "(let* ((x y)\n       (z x))\n  x\n  z)") ∧
    ∃ varlist, (bindTwo "x").tree.child? 0 = some varlist ∧
      List.Forall₂ Binding.MadeBy (twoBindings "x") varlist.binders ∧
      ∃ stack after, ownNames.exec varlist.tokens ⟨[], id⟩ = some ⟨stack, after⟩ ∧ after "z" = "x" ∧
        (Header.ofBindings (twoBindings "x")).scope ownNames id "z" = "y" := by
  obtain ⟨varlist, hvarlist, hbs⟩ := twoBindings_madeBy "x" (by decide)
  have hsource : ((bindTwo "x").tree.render "").toOption.any
      (·.text = "(let* ((x y)\n       (z x))\n  x\n  z)") = true := by
    decide +kernel
  obtain ⟨source, hrender, htext⟩ := exists_ok_of_any hsource
  cases hvarlist
  exact ⟨bindTwo_sound "x", rfl, ⟨source, hrender, of_decide_eq_true htext⟩, _, rfl, hbs, _, _,
    rfl, rfl, rfl⟩

end Let

end ElispLift

import ElispLift.Proofs.Idioms.Instructions
import ElispLift.Source

/-!
# Temporary buffers

A `let` of a temporary buffer becomes `with-temp-buffer` iff its first statement evaluates others in
a buffer that refers to the variable. What the parser reads as such a statement has the variable for
its buffer, but one that is made from `set-buffer` has any expression, in which the variable is only
looked for. The statements behind it in the body of the `let` join those inside.
-/

namespace ElispLift

namespace Nonterminal

/-- The kinds of the forms that idioms put in place of nodes of a kind. -/
def becomes : (kind made : Nonterminal) → Bool
  | unaryExpr, unaryExpr | unaryExpr, binaryExpr | binaryExpr, counted _ => true
  | counted .call, defvar | counted .call, defvarDoc | counted .call, defconst
  | counted .call, defconstDoc | counted .call, counted .call => true
  | exprStmt, exprStmt | whenMacro, ifForm => true
  | saveCurrentBufferForm, withCurrentBufferMacro | letFormStar, withTempBufferMacro => true
  | dolistMacro, dolist => true
  | _, _ => false

/-- The first symbols of the rules of a kind, as far as idioms count on them. -/
def leading : Nonterminal → List Symbol
  | letFormStar => [.nonterminal varlist, .nonterminal body]
  | saveCurrentBufferForm => [.terminal (.fixed .saveCurrentBuffer), .nonterminal body]
  | withCurrentBufferMacro =>
    [.terminal (.fixed .saveCurrentBuffer), .terminal (.fixed .varref),
      .terminal (.fixed .setBuffer), .terminal (.fixed .discard), .nonterminal exprs]
  | unwindProtectForm =>
    [.nonterminal expr, .terminal (.fixed .unwindProtect), .nonterminal optExprs]
  | _ => []

end Nonterminal

namespace Idiom

open Node

variable {kind : Nonterminal} {children : List Node} {node : Node}

/-- A form that an idiom makes has one of the kinds that those of its node can get. -/
theorem Makes.becomes (h : Makes kind children node) :
    ∃ kind' cs idiom, node = tree kind' cs (some idiom) ∧ kind.becomes kind' = true := by
  cases h with
  | @defvar _ _ _ _ _ d _ _ hd =>
    refine ⟨d.kind, _, _, rfl, ?_⟩
    rcases definition?_kind hd with hkind | hkind <;> rw [hkind] <;> split <;> rfl
  | _ => exact ⟨_, _, _, rfl, rfl⟩

end Idiom

namespace Node

variable {node e d : Node} {kind : Nonterminal} {children : List Node}
  {idiom idiom' : Option Idiom}

/-! ### Idioms and wrappers -/

/-- Recognising idioms in a tree, with what is put in its place if there is one. -/
theorem idiomatic_cases (kind : Nonterminal) (children : List Node) (idiom : Option Idiom) :
    (tree kind children idiom).idiomatic = tree kind (children.map idiomatic) idiom ∨
      Idiom.Makes kind (children.map idiomatic) (tree kind children idiom).idiomatic := by
  rw [idiomatic, idiomaticAll_eq_map]
  cases h : Idiom.recognize? kind (children.map idiomatic) with
  | none => exact .inl rfl
  | some found => exact .inr (Idiom.makes_of_recognize? h)

theorem children_tree : (tree kind children idiom).children = children := rfl

theorem idiomatic_of_recognize? (h : Idiom.recognize? kind (children.map idiomatic) = some node) :
    (tree kind children idiom).idiomatic = node := by
  rw [idiomatic, idiomaticAll_eq_map, h]
  rfl

theorem idiomatic_tree (h : ∀ cs, Idiom.recognize? kind cs = none) :
    (tree kind children idiom).idiomatic = tree kind (children.map idiomatic) idiom := by
  rw [idiomatic, idiomaticAll_eq_map, h]
  rfl

/-- A node of a kind that no idiom makes was there before. -/
theorem exists_of_idiomatic {kind' : Nonterminal} {children' : List Node} {idiom' : Option Idiom}
    (h : node.idiomatic = tree kind' children' idiom')
    (hmade : ∀ kind : Nonterminal, kind.becomes kind' = false) :
    ∃ children, node = tree kind' children idiom' ∧ children' = children.map idiomatic := by
  cases node with
  | token i => cases h
  | tree kind children idiom =>
    rcases idiomatic_cases kind children idiom with hsame | hfound
    · rw [hsame] at h
      cases h
      exact ⟨children, rfl, rfl⟩
    · obtain ⟨kind'', cs, found, heq, hkind⟩ := hfound.becomes
      rw [heq] at h
      cases h
      simp [hmade kind] at hkind

theorem unwrap_eq_self (h : kind = .expr ∨ kind = .exprStacked → children.length ≠ 1) :
    (tree kind children idiom).unwrap = tree kind children idiom := by
  unfold Node.unwrap
  split
  next heq =>
    cases heq
    exact absurd rfl (h (.inl rfl))
  next heq =>
    cases heq
    exact absurd rfl (h (.inr rfl))
  · rfl

/-- Wrappers stay, and no idiom makes one. -/
theorem unwrap_idiomatic (node : Node) : node.idiomatic.unwrap = node.unwrap.idiomatic := by
  fun_induction Node.unwrap node with
  | case1 only idiom ih => exact ih
  | case2 only idiom ih => exact ih
  | case3 node hexpr hstacked =>
    cases node with
    | token i => rfl
    | tree kind children idiom =>
      rcases idiomatic_cases kind children idiom with hsame | hfound
      · rw [hsame]
        refine unwrap_eq_self fun hkind hlength => ?_
        rw [List.length_map] at hlength
        obtain ⟨only, rfl⟩ := List.length_eq_one_iff.1 hlength
        rcases hkind with rfl | rfl
        · exact hexpr only idiom rfl
        · exact hstacked only idiom rfl
      · obtain ⟨kind', cs, found, heq, hkind⟩ := hfound.becomes
        rw [heq]
        refine unwrap_eq_self fun hwrapper => ?_
        rcases hwrapper with rfl | rfl <;> cases kind <;> simp [Nonterminal.becomes] at hkind

/-- What a statement evaluates is a branch that an idiom made, or was there before. -/
theorem evaluated_of_idiomatic {x : Node}
    (hx : (tree .exprStmt [e, d] idiom).idiomatic.child? 0 = some x)
    (hu : x.unwrap = tree kind children idiom') (hkind : kind ≠ .ifForm) :
    e.unwrap.idiomatic = tree kind children idiom' := by
  rcases idiomatic_cases .exprStmt [e, d] idiom with hsame | hmade
  · rw [hsame] at hx
    cases hx
    rw [← unwrap_idiomatic, hu]
  · generalize (tree .exprStmt [e, d] idiom).idiomatic = found at hx hmade
    cases hmade with
    | andStatement =>
      cases hx
      cases hu
      exact absurd rfl hkind

/-- A statement that does not evaluate an `and` stays. -/
theorem idiomatic_statement (h : e.unwrap.idiomatic.isKind .andForm = false) :
    (tree .exprStmt [e, d] idiom).idiomatic = tree .exprStmt [e.idiomatic, d.idiomatic] idiom := by
  refine (idiomatic_cases .exprStmt [e, d] idiom).resolve_right fun hmade => ?_
  generalize (tree .exprStmt [e, d] idiom).idiomatic = found at hmade
  cases hmade with
  | andStatement _ hu =>
    rw [unwrap_idiomatic] at hu
    simp [hu, isKind, kind?] at h

theorem unwindProtectForm_of_idiomatic
    (h : node.idiomatic = tree .unwindProtectForm children idiom) :
    ∃ cs, node = tree .unwindProtectForm cs idiom ∧ children = cs.map idiomatic :=
  exists_of_idiomatic h fun kind => by cases kind <;> simp [Nonterminal.becomes]

theorem setBuffer_of_idiomatic (h : node.idiomatic = tree .setBuffer children idiom) :
    ∃ cs, node = tree .setBuffer cs idiom ∧ children = cs.map idiomatic :=
  exists_of_idiomatic h fun kind => by cases kind <;> simp [Nonterminal.becomes]

end Node

namespace Grammar

theorem leading_base : ∀ r ∈ base, r.lhs.leading <+: r.rhs := by
  decide +kernel

theorem leading_rule {source : List Instruction} {r : Rule} (h : r ∈ base ++ arityRules source) :
    r.lhs.leading <+: r.rhs := by
  rcases List.mem_append.1 h with h | h
  · exact leading_base r h
  · obtain ⟨family, count, -, rfl | rfl⟩ := arityRulesAfter_mem h <;> exact List.nil_prefix

end Grammar

namespace Node

variable {start : Nonterminal} {source tokens : List Instruction} {t node : Node}
  {kind : Nonterminal} {children : List Node} {idiom : Option Idiom}

/-- The nodes of a parsed tree start with the children that idioms count on. -/
theorem leading_of_parse (h : parse start (Grammar.arityRules source) tokens = .ok t)
    (hm : tree kind children idiom ∈ t.subnodes) : kind.leading <+: children.map symbol := by
  cases hplain : kind.isCollected with
  | false =>
    obtain ⟨r, hr, rfl, hrhs⟩ := exists_rule h _ hm _ _ _ rfl hplain
    exact hrhs ▸ Grammar.leading_rule hr
  | true =>
    have hnone : kind.leading = [] := by
      cases kind <;> first | rfl | cases hplain
    rw [hnone]
    exact List.nil_prefix

/-- A node where the parser puts a nonterminal. -/
theorem exists_child_of_parse {n : Nat} {kind' : Nonterminal}
    (h : parse start (Grammar.arityRules source) tokens = .ok t)
    (hm : tree kind children idiom ∈ t.subnodes)
    (hn : kind.leading[n]? = some (.nonterminal kind')) :
    ∃ cs idiom', children[n]? = some (tree kind' cs idiom') := by
  obtain ⟨rest, hrest⟩ := leading_of_parse h hm
  have hsymbol : (children.map symbol)[n]? = some (.nonterminal kind') := by
    rw [← hrest, List.getElem?_append_left (List.getElem?_eq_some_iff.1 hn).1, hn]
  rw [List.getElem?_map, Option.map_eq_some_iff] at hsymbol
  obtain ⟨c, hc, hkind⟩ := hsymbol
  obtain ⟨cs, idiom', rfl⟩ := eq_tree_of_symbol hkind
  exact ⟨cs, idiom', hc⟩

/-- A list of statements of a parsed tree. -/
def Statements (t : Node) (nodes : List Node) : Prop :=
  ∀ s ∈ nodes, s ∈ t.subnodes ∧ ∃ e d idiom, s = tree .exprStmt [e, d] idiom ∧
    d.seen = some (.nonterminal .optDiscard)

theorem statements_of_exprs (h : parse start (Grammar.arityRules source) tokens = .ok t)
    (hm : tree .exprs children idiom ∈ t.subnodes) : t.Statements children := by
  intro s hs
  have hmem : s ∈ t.subnodes := subnodes_subset hm (mem_subnodes_of_mem_children hs)
  have hseen : s.seen = some (.nonterminal .exprStmt) := by
    have hall : (children.map seen).all (· = some (.nonterminal .exprStmt)) = true :=
      standard_of_parse h _ hm
    exact of_decide_eq_true (List.all_eq_true.1 hall _ (List.mem_map_of_mem hs))
  have hstandard : s.Standard := fun m hm => standard_of_parse h m (subnodes_subset hmem hm)
  exact ⟨hmem, hstandard.statement hseen⟩

/-- The statements of a body of a parsed tree. -/
theorem exists_statements (h : parse start (Grammar.arityRules source) tokens = .ok t)
    (hm : tree .body children idiom ∈ t.subnodes) :
    ∃ list idiom', children = [tree .exprs list idiom'] ∧ t.Statements list := by
  have hstandard : children.map seen = [some (.nonterminal .exprs)] :=
    of_decide_eq_true (standard_of_parse h _ hm)
  obtain ⟨items, rfl, hitems⟩ := List.map_eq_singleton_iff.1 hstandard
  obtain ⟨list, idiom', rfl⟩ := eq_tree_of_seen hitems
  have hlist := subnodes_subset hm (mem_subnodes_of_mem_children (List.mem_singleton_self _))
  exact ⟨list, idiom', rfl, statements_of_exprs h hlist⟩

theorem statements_idiomatic (h : parse start (Grammar.arityRules source) tokens = .ok t)
    (hm : tree .body children idiom ∈ t.subnodes) :
    t.Statements (tree .body children idiom).statements ∧
      (tree .body children idiom).idiomatic.statements =
        (tree .body children idiom).statements.map idiomatic := by
  obtain ⟨list, idiom', rfl, hlist⟩ := exists_statements h hm
  refine ⟨hlist, ?_⟩
  rw [← idiomaticAll_eq_map]
  rfl

theorem unprotected_eq_self {statements : List Node}
    (h : ∀ only x, statements = [only] → only.child? 0 = some x →
      ∀ cs idiom, x.unwrap ≠ tree .unwindProtectForm cs idiom) :
    Idiom.unprotected statements = some statements := by
  unfold Idiom.unprotected
  split
  next only =>
    split
    next cs idiom hu =>
      obtain ⟨x, hx, hu⟩ := Option.map_eq_some_iff.1 hu
      exact absurd hu (h only x rfl hx cs idiom)
    · rfl
  · rfl

/-- Idioms leave what is protected where it is. -/
theorem exists_unprotected (h : parse start (Grammar.arityRules source) tokens = .ok t)
    {statements : List Node} (hs : t.Statements statements) :
    ∃ inside, Idiom.unprotected statements = some inside ∧
      Idiom.unprotected (statements.map idiomatic) = some (inside.map idiomatic) := by
  by_cases hform : ∃ e d idiom cs idiom', statements = [tree .exprStmt [e, d] idiom] ∧
      e.unwrap = tree .unwindProtectForm cs idiom'
  · obtain ⟨e, d, idiom, cs, idiom', rfl, hform⟩ := hform
    have hbelow : tree .unwindProtectForm cs idiom' ∈ t.subnodes := by
      have hmem := (hs _ (List.mem_singleton_self _)).1
      have he : e ∈ t.subnodes :=
        subnodes_subset hmem (mem_subnodes_of_mem_children List.mem_cons_self)
      exact hform ▸ subnodes_subset he e.unwrap_mem_subnodes
    obtain ⟨list, idiom'', hlist⟩ := exists_child_of_parse (n := 2) h hbelow rfl
    have hidiomatic : e.unwrap.idiomatic = tree .unwindProtectForm (cs.map idiomatic) idiom' := by
      rw [hform, idiomatic_tree fun _ => rfl]
    have hstay : (tree .exprStmt [e, d] idiom).idiomatic =
        tree .exprStmt [e.idiomatic, d.idiomatic] idiom :=
      idiomatic_statement (by rw [hidiomatic]; rfl)
    have hchild : (tree .optExprs list idiom'').idiomatic =
        tree .optExprs (list.map idiomatic) idiom'' := idiomatic_tree fun _ => rfl
    refine ⟨list, by simp [Idiom.unprotected, child?, Node.children, hform, hlist], ?_⟩
    simp [hstay, Idiom.unprotected, child?, Node.children, unwrap_idiomatic, hidiomatic, hlist,
      hchild]
  · refine ⟨statements, ?_, ?_⟩
    · refine unprotected_eq_self fun only x hone hx cs idiom' hu => hform ?_
      subst hone
      obtain ⟨-, e, d, idiom, rfl, -⟩ := hs only (List.mem_singleton_self only)
      obtain rfl : e = x := Option.some.inj hx
      exact ⟨e, d, idiom, cs, idiom', rfl, hu⟩
    · refine unprotected_eq_self fun only x hone hx cs idiom' hu => hform ?_
      obtain ⟨first, rfl, rfl⟩ := List.map_eq_singleton_iff.1 hone
      obtain ⟨-, e, d, idiom, rfl, -⟩ := hs first (List.mem_singleton_self first)
      obtain ⟨cs', he, -⟩ :=
        unwindProtectForm_of_idiomatic (evaluated_of_idiomatic hx hu (by decide))
      exact ⟨e, d, idiom, cs', idiom', rfl, he⟩

/-- A node that evaluates some statements with a buffer as the current one. It is read as such, or
starts with `set-buffer`. -/
inductive InBuffer (buffer : Node) (statements : List Node) : Node → Prop
  | read {save set discard : Node} {rest : List Node} {idiom idiom' : Option Idiom} :
      InBuffer buffer statements (tree .withCurrentBufferMacro
        (save :: buffer :: set :: discard :: tree .exprs statements idiom' :: rest) idiom)
  | form {save body unbind first evaluated optDiscard set : Node} {idiom idiom' : Option Idiom}
      (hbody : body.statements = first :: statements)
      (hfirst : first.children = [evaluated, optDiscard])
      (hset : evaluated.unwrap = tree .setBuffer [buffer, set] idiom')
      (hdiscard : optDiscard.children ≠ []) :
      InBuffer buffer statements (tree .saveCurrentBufferForm [save, body, unbind] idiom)

/-- The parser reads a variable for the buffer of a `with-current-buffer`. -/
theorem exists_macro (h : parse start (Grammar.arityRules source) tokens = .ok t)
    (hm : tree .withCurrentBufferMacro children idiom ∈ t.subnodes) :
    ∃ save buffer set discard statements idiom' rest,
      children = save :: buffer :: set :: discard :: tree .exprs statements idiom' :: rest ∧
      buffer.isOp .varref = true := by
  obtain ⟨statements, idiom', hlist⟩ := exists_child_of_parse (n := 4) h hm rfl
  obtain ⟨rest, hleading⟩ := leading_of_parse h hm
  rcases children with _ | ⟨save, _ | ⟨buffer, _ | ⟨set, _ | ⟨discard, _ | ⟨list, rest⟩⟩⟩⟩⟩
  iterate 5 · cases hlist
  obtain rfl : list = tree .exprs statements idiom' := Option.some.inj hlist
  have hbuffer : Symbol.terminal (.fixed .varref) = buffer.symbol :=
    (List.cons.inj (List.cons.inj hleading).2).1
  exact ⟨save, buffer, set, discard, statements, idiom', rest, rfl,
    symbol_eq_terminal.1 hbuffer.symm⟩

/-- Where a statement sets the buffer, its end stays behind it. -/
theorem idiomatic_setBuffer {e d : Node} {operands : List Node} {idiom' : Option Idiom}
    (he : e.unwrap = tree .setBuffer operands idiom')
    (hd : d.seen = some (.nonterminal .optDiscard)) :
    (tree .exprStmt [e, d] idiom).idiomatic = tree .exprStmt [e.idiomatic, d.idiomatic] idiom ∧
      d.idiomatic.children = d.children.map idiomatic := by
  have hset : (tree .setBuffer operands idiom').idiomatic =
      tree .setBuffer (operands.map idiomatic) idiom' := idiomatic_tree fun _ => rfl
  obtain ⟨ends, idiom'', rfl⟩ := eq_tree_of_seen hd
  refine ⟨idiomatic_statement (by rw [he, hset]; rfl), ?_⟩
  rw [idiomatic_tree fun _ => rfl]
  rfl

/-- What `with-current-buffer` is made from, with the idioms of its parts. -/
theorem exists_form (h : parse start (Grammar.arityRules source) tokens = .ok t)
    (hw : tree .saveCurrentBufferForm children idiom ∈ t.subnodes) {inner : List Node}
    {found : Option Idiom} (hmade : Idiom.Makes .saveCurrentBufferForm (children.map idiomatic)
      (tree .withCurrentBufferMacro inner found)) :
    ∃ buffer statements,
      InBuffer buffer statements (tree .saveCurrentBufferForm children idiom) ∧
      t.Statements statements ∧ inner[1]? = some buffer.idiomatic ∧
      (inner[4]?).map Node.children = some (statements.map idiomatic) := by
  obtain ⟨parts, idiom', hchild⟩ := exists_child_of_parse (n := 1) h hw rfl
  have hbelow : tree .body parts idiom' ∈ t.subnodes :=
    subnodes_subset hw (mem_subnodes_of_mem_children (List.mem_of_getElem? hchild))
  obtain ⟨hall, hidiomatic⟩ := statements_idiomatic h hbelow
  generalize hchildren : children.map idiomatic = cs at hmade
  cases hmade with
  | @withCurrentBuffer _ _ _ _ x _ discard _ _ _ _ hbody hfirst hset hdiscard =>
    obtain ⟨save, tail, rfl, rfl, htail⟩ := List.map_eq_cons_iff.1 hchildren
    obtain ⟨body, tail, rfl, rfl, hlast⟩ := List.map_eq_cons_iff.1 htail
    obtain ⟨unbind, rfl, rfl⟩ := List.map_eq_singleton_iff.1 hlast
    obtain rfl : body = tree .body parts idiom' := Option.some.inj hchild
    rw [hidiomatic] at hbody
    obtain ⟨first, statements, hsplit, rfl, rfl⟩ := List.map_eq_cons_iff.1 hbody
    rw [hsplit] at hall
    obtain ⟨-, e, d, idiom'', rfl, hd⟩ := hall first List.mem_cons_self
    have hx : (tree .exprStmt [e, d] idiom'').idiomatic.child? 0 = some x := by
      rw [child?, hfirst]
      rfl
    obtain ⟨operands, he, hoperands⟩ :=
      setBuffer_of_idiomatic (evaluated_of_idiomatic hx hset (by decide))
    obtain ⟨hstay, hends⟩ := @idiomatic_setBuffer idiom'' _ _ _ _ he hd
    rw [hstay] at hfirst
    cases hfirst
    have hne : d.children ≠ [] := fun hnil => by
      rw [child?, hends, hnil] at hdiscard
      cases hdiscard
    obtain ⟨buffer, tail, rfl, rfl, htail⟩ := List.map_eq_cons_iff.1 hoperands.symm
    obtain ⟨set, rfl, rfl⟩ := List.map_eq_singleton_iff.1 htail
    have hrest : t.Statements statements := fun s hs => hall s (List.mem_cons_of_mem _ hs)
    exact ⟨buffer, statements, .form hsplit rfl he hne, hrest, rfl, rfl⟩

/-- What is taken for `with-current-buffer` is one, with the idioms of its parts. -/
theorem exists_inBuffer (h : parse start (Grammar.arityRules source) tokens = .ok t) {w : Node}
    (hw : w ∈ t.subnodes) {inner : List Node}
    (hfound : w.idiomatic = tree .withCurrentBufferMacro inner idiom) :
    ∃ buffer statements, InBuffer buffer statements w ∧ t.Statements statements ∧
      (w.isKind .withCurrentBufferMacro = true → buffer.isOp .varref = true) ∧
      inner[1]? = some buffer.idiomatic ∧
      (inner[4]?).map Node.children = some (statements.map idiomatic) := by
  cases w with
  | token i => cases hfound
  | tree kind children idiom' =>
    rcases idiomatic_cases kind children idiom' with hsame | hmade
    · rw [hsame] at hfound
      cases hfound
      obtain ⟨save, buffer, set, discard, statements, idiom'', rest, rfl, hbuffer⟩ :=
        exists_macro h hw
      have hlist : tree .exprs statements idiom'' ∈ t.subnodes :=
        subnodes_subset hw (mem_subnodes_of_mem_children (by simp [Node.children]))
      have hexprs : (tree .exprs statements idiom'').idiomatic =
          tree .exprs (statements.map idiomatic) idiom'' := idiomatic_tree fun _ => rfl
      exact ⟨buffer, statements, .read, statements_of_exprs h hlist, fun _ => hbuffer, rfl,
        by simp [hexprs, Node.children]⟩
    · rw [hfound] at hmade
      obtain rfl : kind = .saveCurrentBufferForm := by
        obtain ⟨kind', cs, made, heq, hkind⟩ := hmade.becomes
        cases heq
        cases kind <;> simp [Nonterminal.becomes] at hkind
        rfl
      obtain ⟨buffer, statements, hform, hall, hsecond, hfifth⟩ := exists_form h hw hmade
      exact ⟨buffer, statements, hform, hall, by simp [isKind, kind?], hsecond, hfifth⟩

/-- What evaluates statements in a buffer becomes `with-current-buffer`. -/
theorem idiomatic_of_inBuffer (h : parse start (Grammar.arityRules source) tokens = .ok t)
    {w buffer : Node} {statements : List Node} (hw : w ∈ t.subnodes)
    (hform : InBuffer buffer statements w) :
    t.Statements statements ∧ ∃ inner idiom,
      w.idiomatic = tree .withCurrentBufferMacro inner idiom ∧ inner[1]? = some buffer.idiomatic ∧
      (inner[4]?).map Node.children = some (statements.map idiomatic) := by
  cases hform with
  | @read save set discard rest idiom idiom' =>
    have hlist : tree .exprs statements idiom' ∈ t.subnodes :=
      subnodes_subset hw (mem_subnodes_of_mem_children (by simp [Node.children]))
    have hexprs : (tree .exprs statements idiom').idiomatic =
        tree .exprs (statements.map idiomatic) idiom' := idiomatic_tree fun _ => rfl
    exact ⟨statements_of_exprs h hlist, _, idiom, idiomatic_tree fun _ => rfl, rfl,
      by simp [hexprs, Node.children]⟩
  | @form save body unbind first e d set idiom idiom' hbody hfirst hset hdiscard =>
    obtain ⟨parts, idiom'', hchild⟩ := exists_child_of_parse (n := 1) h hw rfl
    obtain rfl : body = tree .body parts idiom'' := Option.some.inj hchild
    have hbelow : tree .body parts idiom'' ∈ t.subnodes :=
      subnodes_subset hw (mem_subnodes_of_mem_children (by simp [Node.children]))
    obtain ⟨hall, hidiomatic⟩ := statements_idiomatic h hbelow
    rw [hbody] at hall hidiomatic
    obtain ⟨-, e', d', idiom''', rfl, hd⟩ := hall first List.mem_cons_self
    cases hfirst
    obtain ⟨hstay, hends⟩ := @idiomatic_setBuffer idiom''' _ _ _ _ hset hd
    have hset' : e.idiomatic.unwrap =
        tree .setBuffer [buffer.idiomatic, set.idiomatic] idiom' := by
      rw [unwrap_idiomatic, hset, idiomatic_tree fun _ => rfl]
      rfl
    obtain ⟨discard, rest, hne⟩ := List.exists_cons_of_ne_nil hdiscard
    have hrest : t.Statements statements := fun s hs => hall s (List.mem_cons_of_mem _ hs)
    have hmade : Idiom.withCurrentBuffer? [save.idiomatic, (tree .body parts idiom'').idiomatic,
        unbind.idiomatic] = some (Idiom.made .withCurrentBuffer .withCurrentBufferMacro
          [save.idiomatic, buffer.idiomatic, set.idiomatic, discard.idiomatic,
            plain .exprs (statements.map idiomatic), unbind.idiomatic]) := by
      simp [Idiom.withCurrentBuffer?, hidiomatic, hstay, child?, children_tree, hset', hends, hne]
    exact ⟨hrest, _, _, idiomatic_of_recognize? hmade, rfl, rfl⟩

/-- The variable of a temporary buffer. -/
def isTempBuffer : Node → Bool
  | token i => i.isOp .varref && i.operandText? == some Idiom.tempBuffer
  | tree _ _ _ => false

/-- A variable that refers to the temporary buffer is that variable. -/
theorem isTempBuffer_of_refersTo {buffer : Node} (hvariable : buffer.isOp .varref = true)
    (h : buffer.idiomatic.refersTo Idiom.tempBuffer = true) : buffer.isTempBuffer = true := by
  cases buffer with
  | token i => simpa [idiomatic, refersTo, tokens, isTempBuffer] using h
  | tree kind children idiom => cases hvariable

/-- The body of a `let` starts with a statement that evaluates `inside` in a buffer with the
variable of the temporary buffer in it, and the `rest` of the body is behind that statement. -/
def StartsInTempBuffer (body buffer : Node) (inside rest : List Node) : Prop :=
  ∃ first evaluated statements, body.statements = first :: rest ∧
    first.child? 0 = some evaluated ∧ InBuffer buffer statements evaluated.unwrap ∧
    Idiom.unprotected statements = some inside ∧
    buffer.idiomatic.refersTo Idiom.tempBuffer = true ∧
    (evaluated.unwrap.isKind .withCurrentBufferMacro = true → buffer.isTempBuffer = true)

theorem unwrap_mem_of_statement (hm : tree .exprStmt (node :: children) idiom ∈ t.subnodes) :
    node.unwrap ∈ t.subnodes :=
  subnodes_subset (subnodes_subset hm (mem_subnodes_of_mem_children List.mem_cons_self))
    node.unwrap_mem_subnodes

/-- The body of a `let` that becomes `with-temp-buffer`. -/
theorem exists_startsInTempBuffer (h : parse start (Grammar.arityRules source) tokens = .ok t)
    (hm : tree .letFormStar children idiom ∈ t.subnodes)
    (hmade : Idiom.Makes .letFormStar (children.map idiomatic) node) :
    ∃ varlist body buffer inside rest, children.head? = some varlist ∧
      Idiom.bindsTempBuffer varlist.idiomatic = true ∧ children[1]? = some body ∧
      body.StartsInTempBuffer buffer inside rest ∧
      node = Idiom.made .withTempBuffer .withTempBufferMacro
        [plain .exprs ((inside ++ rest).map idiomatic)] := by
  obtain ⟨parts, idiom', hchild⟩ := exists_child_of_parse (n := 1) h hm rfl
  have hbelow : tree .body parts idiom' ∈ t.subnodes :=
    subnodes_subset hm (mem_subnodes_of_mem_children (List.mem_of_getElem? hchild))
  obtain ⟨hall, hidiomatic⟩ := statements_idiomatic h hbelow
  generalize hchildren : children.map idiomatic = cs at hmade
  cases hmade with
  | withTempBuffer hvarlist hbinds hbody hstatements hevaluated hu hbuffer hrefers hlist hinside =>
    subst hchildren
    rw [List.head?_map] at hvarlist
    obtain ⟨varlist, hhead, rfl⟩ := Option.map_eq_some_iff.1 hvarlist
    rw [List.getElem?_map, hchild, Option.map_some, Option.some.injEq] at hbody
    subst hbody
    rw [hidiomatic] at hstatements
    obtain ⟨first, rest, hbody, rfl, rfl⟩ := List.map_eq_cons_iff.1 hstatements
    rw [hbody] at hall
    obtain ⟨hfirst, e, d, idiom'', rfl, -⟩ := hall first List.mem_cons_self
    obtain ⟨buffer, statements, hform, hstatements, hvariable, hsecond, hfifth⟩ :=
      exists_inBuffer h (unwrap_mem_of_statement hfirst)
        (evaluated_of_idiomatic hevaluated hu (by decide))
    obtain rfl := Option.some.inj (hbuffer.symm.trans hsecond)
    rw [hlist, Option.map_some, Option.some.injEq] at hfifth
    obtain ⟨inside, hunprotected, hinside'⟩ := exists_unprotected h hstatements
    rw [hfifth, hinside', Option.some.injEq] at hinside
    subst hinside
    have hstarts : (tree .body parts idiom').StartsInTempBuffer buffer inside rest :=
      ⟨_, e, statements, hbody, rfl, hform, hunprotected, hrefers,
        fun hkind => isTempBuffer_of_refersTo (hvariable hkind) hrefers⟩
    exact ⟨varlist, _, buffer, inside, rest, hhead, hbinds, hchild, hstarts,
      by rw [List.map_append]⟩

/-- A `let` with such a body becomes `with-temp-buffer`. -/
theorem idiomatic_of_startsInTempBuffer
    (h : parse start (Grammar.arityRules source) tokens = .ok t)
    (hm : tree .letFormStar children idiom ∈ t.subnodes) {varlist body buffer : Node}
    {inside rest : List Node} (hhead : children.head? = some varlist)
    (hbinds : Idiom.bindsTempBuffer varlist.idiomatic = true) (hbody : children[1]? = some body)
    (hstarts : body.StartsInTempBuffer buffer inside rest) :
    (tree .letFormStar children idiom).idiomatic =
      Idiom.made .withTempBuffer .withTempBufferMacro
        [plain .exprs ((inside ++ rest).map idiomatic)] := by
  obtain ⟨first, evaluated, statements, hsplit, hevaluated, hform, hunprotected, hrefers, -⟩ :=
    hstarts
  obtain ⟨parts, idiom', hchild⟩ := exists_child_of_parse (n := 1) h hm rfl
  obtain rfl := Option.some.inj (hchild.symm.trans hbody)
  have hbelow : tree .body parts idiom' ∈ t.subnodes :=
    subnodes_subset hm (mem_subnodes_of_mem_children (List.mem_of_getElem? hchild))
  obtain ⟨hall, hidiomatic⟩ := statements_idiomatic h hbelow
  rw [hsplit] at hall hidiomatic
  obtain ⟨hfirst, e, d, idiom'', rfl, -⟩ := hall first List.mem_cons_self
  obtain rfl : e = evaluated := Option.some.inj hevaluated
  obtain ⟨hstatements, inner, found, hw, hsecond, hfifth⟩ :=
    idiomatic_of_inBuffer h (unwrap_mem_of_statement hfirst) hform
  obtain ⟨list, hlist, hchildren⟩ := Option.map_eq_some_iff.1 hfifth
  obtain ⟨inside', hunprotected', hinside⟩ := exists_unprotected h hstatements
  obtain rfl := Option.some.inj (hunprotected'.symm.trans hunprotected)
  have hstay : (tree .exprStmt [e, d] idiom'').idiomatic =
      tree .exprStmt [e.idiomatic, d.idiomatic] idiom'' := idiomatic_statement (by rw [hw]; rfl)
  refine idiomatic_of_recognize? ?_
  simp [Idiom.recognize?, Idiom.withTempBuffer?, hhead, hbinds, hbody, hidiomatic, hstay, child?,
    children_tree, unwrap_idiomatic, hw, hsecond, hrefers, hlist, hchildren, hinside]

/-- A `let` becomes `with-temp-buffer` iff it binds the variable of a temporary buffer and its body
starts in a buffer with that variable in it. What is evaluated there and the rest of the body become
one body. -/
theorem withTempBuffer_iff_of_parse (h : parse start (Grammar.arityRules source) tokens = .ok t)
    (hm : tree .letFormStar children idiom ∈ t.subnodes) {made : List Node}
    {found : Option Idiom} :
    (tree .letFormStar children idiom).idiomatic = tree .withTempBufferMacro made found ↔
      found = some .withTempBuffer ∧ ∃ varlist body buffer inside rest,
        children.head? = some varlist ∧ Idiom.bindsTempBuffer varlist.idiomatic = true ∧
        children[1]? = some body ∧ body.StartsInTempBuffer buffer inside rest ∧
        made = [plain .exprs ((inside ++ rest).map idiomatic)] := by
  constructor
  · intro hfound
    have hmade := (idiomatic_cases .letFormStar children idiom).resolve_left fun hsame => by
      rw [hsame] at hfound
      cases hfound
    rw [hfound] at hmade
    obtain ⟨varlist, body, buffer, inside, rest, hhead, hbinds, hbody, hstarts, heq⟩ :=
      exists_startsInTempBuffer h hm hmade
    cases heq
    exact ⟨rfl, varlist, body, buffer, inside, rest, hhead, hbinds, hbody, hstarts, rfl⟩
  · rintro ⟨rfl, varlist, body, buffer, inside, rest, hhead, hbinds, hbody, hstarts, rfl⟩
    exact idiomatic_of_startsInTempBuffer h hm hhead hbinds hbody hstarts

end Node

/-- `(with-temp-buffer (insert "x"))` -/
def insertInTempBuffer : List Instruction :=
  [.ofOpcode .constant (some (.symbol "generate-new-buffer")) 0,
    .ofOpcode .constant (some (.str "\"*temp*\"")) 1, ⟨.counted .call 1, some (.int 1), 2, none⟩,
    .ofOpcode .varbind (some (.symbol "temp-buffer")) 3, .ofOpcode .saveCurrentBuffer none 4,
    .ofOpcode .varref (some (.symbol "temp-buffer")) 5, .ofOpcode .setBuffer none 6,
    .ofOpcode .discard none 7, .ofOpcode .constant (some (.symbol "ignore")) 8,
    .ofOpcode .unwindProtect none 9, .ofOpcode .constant (some (.symbol "insert")) 10,
    .ofOpcode .constant (some (.str "\"x\"")) 11, ⟨.counted .call 1, some (.int 1), 12, none⟩,
    .ofOpcode .unbind (some (.int 1)) 13, .ofOpcode .unbind (some (.int 1)) 14,
    .ofOpcode .unbind (some (.int 1)) 15, .ofOpcode .ret none 16]

theorem withTempBuffer_iff_of_parse_insertInTempBuffer : ∃ s t children idiom made found,
    Segmentation.ofInstructions insertInTempBuffer = .ok s ∧
    parse .fnBody (Grammar.arityRules s.annotated) s.annotated = .ok t ∧
    Node.tree .letFormStar children idiom ∈ t.subnodes ∧
    (Node.tree .letFormStar children idiom).idiomatic =
      .tree .withTempBufferMacro made found ∧
    found = some .withTempBuffer ∧ ∃ varlist body buffer inside rest,
      children.head? = some varlist ∧ Idiom.bindsTempBuffer varlist.idiomatic = true ∧
      children[1]? = some body ∧ body.StartsInTempBuffer buffer inside rest ∧
      made = [.plain .exprs ((inside ++ rest).map Node.idiomatic)] := by
  have hparsed : (Segmentation.ofInstructions insertInTempBuffer).toOption.any (fun s =>
      (parse .fnBody (Grammar.arityRules s.annotated) s.annotated).toOption.any fun t =>
        t.subnodes.any fun m =>
          m.isKind .letFormStar && m.idiomatic.isKind .withTempBufferMacro) = true := by
    decide +kernel
  obtain ⟨s, hs, hparsed⟩ := exists_ok_of_any hparsed
  obtain ⟨t, hparse, hlet⟩ := exists_ok_of_any hparsed
  obtain ⟨m, hm, hkinds⟩ := List.any_eq_true.1 hlet
  obtain ⟨hkind, hmade⟩ := Bool.and_eq_true_iff.1 hkinds
  obtain ⟨children, idiom, rfl⟩ := Node.eq_tree_of_isKind hkind
  obtain ⟨made, found, hfound⟩ := Node.eq_tree_of_isKind hmade
  exact ⟨s, t, children, idiom, made, found, hs, hparse, hm, hfound,
    (Node.withTempBuffer_iff_of_parse hparse hm).1 hfound⟩

/-- A `let` of a temporary buffer in which `(insert "x")` is evaluated in the buffer that
`(car temp-buffer)` is, and `b` behind it in none of both. -/
def insertElsewhere : List Instruction :=
  [.ofOpcode .constant (some (.symbol "generate-new-buffer")) 0,
    .ofOpcode .constant (some (.str "\"*temp*\"")) 1, ⟨.counted .call 1, some (.int 1), 2, none⟩,
    .ofOpcode .varbind (some (.symbol "temp-buffer")) 3, .ofOpcode .saveCurrentBuffer none 4,
    .ofOpcode .varref (some (.symbol "temp-buffer")) 5, .ofOpcode .car none 6,
    .ofOpcode .setBuffer none 7, .ofOpcode .discard none 8,
    .ofOpcode .constant (some (.symbol "insert")) 9, .ofOpcode .constant (some (.str "\"x\"")) 10,
    ⟨.counted .call 1, some (.int 1), 11, none⟩, .ofOpcode .unbind (some (.int 1)) 12,
    .ofOpcode .discard none 13, .ofOpcode .varref (some (.symbol "b")) 14,
    .ofOpcode .unbind (some (.int 1)) 15, .ofOpcode .ret none 16]

/-- Both are moved into a temporary buffer. -/
theorem moved_insertElsewhere : ∃ s t, Segmentation.ofInstructions insertElsewhere = .ok s ∧
    parse .fnBody (Grammar.arityRules s.annotated) s.annotated = .ok t ∧
    (∃ source, t.render "" = .ok source ∧
      source.text = "(let ((temp-buffer (generate-new-buffer \"*temp*\")))\n" ++
        "  (save-current-buffer\n    (set-buffer (car temp-buffer))\n    (insert \"x\"))\n" ++
        "  b)") ∧
    ∃ source, t.idiomatic.render "" = .ok source ∧
      source.text = "(with-temp-buffer\n  (insert \"x\")\n  b)" := by
  have hparsed : (Segmentation.ofInstructions insertElsewhere).toOption.any (fun s =>
      (parse .fnBody (Grammar.arityRules s.annotated) s.annotated).toOption.any fun t =>
        (t.render "").toOption.any
          (·.text = "(let ((temp-buffer (generate-new-buffer \"*temp*\")))\n" ++
            "  (save-current-buffer\n    (set-buffer (car temp-buffer))\n    (insert \"x\"))\n" ++
            "  b)") &&
        (t.idiomatic.render "").toOption.any
          (·.text = "(with-temp-buffer\n  (insert \"x\")\n  b)")) = true := by
    decide +kernel
  obtain ⟨s, hs, hparsed⟩ := exists_ok_of_any hparsed
  obtain ⟨t, hparse, htexts⟩ := exists_ok_of_any hparsed
  obtain ⟨hraw, hidiomatic⟩ := Bool.and_eq_true_iff.1 htexts
  obtain ⟨source, hsource, htext⟩ := exists_ok_of_any hraw
  obtain ⟨source', hsource', htext'⟩ := exists_ok_of_any hidiomatic
  exact ⟨s, t, hs, hparse, ⟨source, hsource, of_decide_eq_true htext⟩,
    source', hsource', of_decide_eq_true htext'⟩

end ElispLift

import ElispLift.Proofs.Idioms.Recognition

/-!
# Parts of trees

A form that an idiom makes holds parts of the node in whose place it stands, and few nodes of its
own. So what holds of all nodes of the children holds of all nodes of the form, if it holds of the
form and of the nodes of its own.
-/

namespace ElispLift

namespace Node

theorem idiomaticAll_eq_map (nodes : List Node) : idiomaticAll nodes = nodes.map idiomatic := by
  induction nodes with
  | nil => rfl
  | cons node rest ih => rw [idiomaticAll, ih, List.map_cons]

mutual

/-- A node and all nodes in it. -/
def subnodes : Node → List Node
  | token i => [token i]
  | tree kind children idiom => tree kind children idiom :: subnodesOf children

def subnodesOf : List Node → List Node
  | [] => []
  | node :: rest => node.subnodes ++ subnodesOf rest

end

theorem mem_subnodesOf {m : Node} {nodes : List Node} :
    m ∈ subnodesOf nodes ↔ ∃ n ∈ nodes, m ∈ n.subnodes := by
  induction nodes with
  | nil => simp [subnodesOf]
  | cons n rest ih => simp [subnodesOf, ih]

@[simp] theorem subnodesOf_append (nodes rest : List Node) :
    subnodesOf (nodes ++ rest) = subnodesOf nodes ++ subnodesOf rest := by
  induction nodes with
  | nil => rfl
  | cons n nodes ih => simp [subnodesOf, ih]

mutual

theorem subnodes_subset {m : Node} : ∀ {node : Node}, m ∈ node.subnodes → m.subnodes ⊆ node.subnodes
  | token i, h => by
    obtain rfl : m = token i := by simpa [subnodes] using h
    exact List.Subset.refl _
  | tree kind children idiom, h => by
    rw [subnodes, List.mem_cons] at h
    rcases h with rfl | h
    · exact List.Subset.refl _
    · exact fun _ hx => List.mem_cons_of_mem _ (subnodesOf_subset h hx)

theorem subnodesOf_subset {m : Node} : ∀ {nodes : List Node}, m ∈ subnodesOf nodes →
    m.subnodes ⊆ subnodesOf nodes
  | [], h => by simp [subnodesOf] at h
  | node :: rest, h => by
    rw [subnodesOf, List.mem_append] at h
    rcases h with h | h
    · exact fun _ hx => List.mem_append_left _ (subnodes_subset h hx)
    · exact fun _ hx => List.mem_append_right _ (subnodesOf_subset h hx)

end

theorem self_mem_subnodes (node : Node) : node ∈ node.subnodes := by
  cases node <;> simp [subnodes]

theorem mem_subnodes_of_mem_children {node c : Node} (hc : c ∈ node.children) :
    c ∈ node.subnodes := by
  cases node with
  | token i => cases hc
  | tree kind children idiom =>
    exact List.mem_cons_of_mem _ (mem_subnodesOf.2 ⟨c, hc, c.self_mem_subnodes⟩)

theorem unwrap_mem_subnodes (node : Node) : node.unwrap ∈ node.subnodes := by
  fun_induction Node.unwrap node with
  | case1 only idiom ih => simp [subnodes, subnodesOf, ih]
  | case2 only idiom ih => simp [subnodes, subnodesOf, ih]
  | case3 node => exact node.self_mem_subnodes

theorem forall_subnodes_tree {p : Node → Prop} {kind : Nonterminal} {children : List Node}
    {idiom : Option Idiom} :
    (∀ m ∈ (tree kind children idiom).subnodes, p m) ↔
      p (tree kind children idiom) ∧ ∀ c ∈ children, ∀ m ∈ c.subnodes, p m := by
  simp only [subnodes, List.mem_cons, mem_subnodesOf]
  constructor
  · intro h
    exact ⟨h _ (.inl rfl), fun c hc m hm => h m (.inr ⟨c, hc, hm⟩)⟩
  · rintro ⟨h, hs⟩ m (rfl | ⟨c, hc, hm⟩)
    · exact h
    · exact hs c hc m hm

/-- The property holds of a node and of all nodes in it. -/
def All (P : Node → Prop) (node : Node) : Prop := ∀ m ∈ node.subnodes, P m

variable {P : Node → Prop} {node c : Node} {kind : Nonterminal} {children : List Node}
  {idiom : Option Idiom}

theorem all_tree : (tree kind children idiom).All P ↔
    P (tree kind children idiom) ∧ ∀ c ∈ children, c.All P := forall_subnodes_tree

theorem all_token {i : Instruction} (h : P (token i)) : (token i).All P := by
  simpa [All, subnodes] using h

namespace All

theorem self (h : node.All P) : P node := h node node.self_mem_subnodes

theorem of_mem (h : node.All P) (hc : c ∈ node.children) : c.All P := fun _ hm =>
  h _ (subnodes_subset (mem_subnodes_of_mem_children hc) hm)

theorem child? (h : node.All P) {n : Nat} (hc : node.child? n = some c) : c.All P :=
  h.of_mem (List.mem_of_getElem? hc)

theorem unwrap (h : node.All P) : node.unwrap.All P := fun _ hm =>
  h _ (subnodes_subset node.unwrap_mem_subnodes hm)

theorem of_unwrap (h : node.All P) (hu : node.unwrap = tree kind children idiom) :
    (tree kind children idiom).All P := hu ▸ h.unwrap

theorem statements (h : node.All P) : ∀ s ∈ node.statements, s.All P := by
  unfold Node.statements
  split
  · exact fun _ => h.of_mem
  · cases hc : node.child? 0 with
    | none => exact fun _ => h.of_mem
    | some c => exact fun _ => (h.child? hc).of_mem

end All

end Node

namespace Idiom

open Node

variable {P : Node → Prop} {kind : Nonterminal} {children : List Node} {node : Node}

/-- The kinds of the nodes that idioms put into the forms that they make. -/
def innerKinds : List Nonterminal :=
  [.unaryOp, .binaryOp, .expr, .kbd, .exprs, .optComeFrom, .optLabel]

/-- The property holds of what idioms put into the forms that they make. -/
structure Allows (P : Node → Prop) : Prop where
  token : ∀ i, P (token i)
  inner : ∀ kind ∈ innerKinds, ∀ children, P (plain kind children)
  branch : ∀ parts idiom, P (tree .andForm parts idiom) → P (made .andStatement .ifForm parts)

theorem Allows.all_plain (h : Allows P) (hkind : kind ∈ innerKinds)
    (hs : ∀ c ∈ children, c.All P) : (plain kind children).All P :=
  all_tree.2 ⟨h.inner kind hkind children, hs⟩

theorem Allows.all_operator (h : Allows P) (hkind : kind ∈ innerKinds) (op : Opcode)
    (offset : Nat) : (operator kind op offset).All P :=
  h.all_plain hkind (by simpa using all_token (h.token _))

theorem all_arguments {op : Opcode} {family : Family} {whole : Node} (hw : whole.All P)
    (hn : node.All P) : ∀ a ∈ arguments op family whole node, a.All P := by
  fun_induction arguments op family whole node with
  | case1 whole only idiom ih => exact ih hw (hn.of_mem (List.mem_singleton_self only))
  | case2 whole only idiom ih => exact ih hw (hn.of_mem (List.mem_singleton_self only))
  | case3 whole a b o rest idiom ho iha ihb =>
    have ha : a.All P := hn.of_mem (by simp [Node.children])
    have hb : b.All P := hn.of_mem (by simp [Node.children])
    intro m hm
    rcases List.mem_append.1 hm with hm | hm
    · exact iha ha ha m hm
    · exact ihb hb hb m hm
  | case4 => simpa using hw
  | case5 => exact fun _ => hn.of_mem
  | case6 => simpa using hw
  | case7 => simpa using hw

theorem all_unprotected {statements rest : List Node} (hs : ∀ s ∈ statements, s.All P)
    (h : unprotected statements = some rest) : ∀ s ∈ rest, s.All P := by
  unfold unprotected at h
  split at h
  case h_2 => exact Option.some.inj h ▸ hs
  case h_1 only =>
    split at h
    case h_2 => exact Option.some.inj h ▸ hs
    case h_1 parts idiom hu =>
      obtain ⟨inner, hinner, hu⟩ := Option.map_eq_some_iff.1 hu
      obtain ⟨list, hlist, rfl⟩ := Option.map_eq_some_iff.1 h
      have hform := ((hs only (by simp)).child? hinner).of_unwrap hu
      exact fun _ => (hform.of_mem (List.mem_of_getElem? hlist)).of_mem

theorem withoutAdvance_subset (statements : List Node) :
    withoutAdvance statements ⊆ statements := by
  unfold withoutAdvance
  split
  · exact List.dropLast_subset statements
  · exact List.Subset.refl _

/-- What holds of all nodes of the children holds of all nodes of the form. -/
theorem Makes.all (h : Makes kind children node) (hP : Allows P) (hs : ∀ c ∈ children, c.All P)
    (hnode : P node) : node.All P := by
  cases h with
  | notEqual _ hu =>
    have hform := (hs _ (by simp)).of_unwrap hu
    refine all_tree.2 ⟨hnode, ?_⟩
    simpa using ⟨hform.of_mem (by simp [Node.children]), hform.of_mem (by simp [Node.children]),
      hP.all_operator (by simp [innerKinds]) _ _⟩
  | cxr _ hu =>
    have hform := (hs _ (by simp)).of_unwrap hu
    refine all_tree.2 ⟨hnode, ?_⟩
    simpa using ⟨hform.of_mem (by simp [Node.children]),
      hP.all_operator (by simp [innerKinds]) _ _⟩
  | @flatten a b op rest opcode family =>
    have ha := hs a (by simp)
    have hb := hs b (by simp)
    refine all_tree.2 ⟨hnode, fun m hm => ?_⟩
    rcases List.mem_append.1 hm with hm | hm
    · exact all_arguments ha ha m hm
    · exact all_arguments hb hb m hm
  | @defvar callee value call function text d =>
    have hvalue : value.All P := hs value (by simp)
    refine all_tree.2 ⟨hnode, ?_⟩
    cases d.doc <;> simpa using ⟨all_token (hP.token _), by simp [hvalue, all_token (hP.token _)]⟩
  | kbd =>
    refine all_tree.2 ⟨hnode, fun c hc => ?_⟩
    rcases List.mem_or_eq_of_mem_set hc with hc | rfl
    · exact hs c hc
    · have hkbd : ∀ i, (plain .kbd [.token i]).All P := fun i =>
        hP.all_plain (by simp [innerKinds]) (by simpa using all_token (hP.token i))
      exact hP.all_plain (by simp [innerKinds]) (by simpa using hkbd _)
  | @andStatement expr discard parts idiom _ hu =>
    have hand := (hs expr (by simp)).of_unwrap hu
    have hif : (made .andStatement .ifForm parts).All P :=
      all_tree.2 ⟨hP.branch parts idiom hand.self, fun _ => hand.of_mem⟩
    have hexpr : (plain .expr [made .andStatement .ifForm parts]).All P :=
      hP.all_plain (by simp [innerKinds]) (by simpa using hif)
    exact all_tree.2 ⟨hnode, by simpa [hexpr] using hs discard (by simp)⟩
  | @whenToIf condition jump body comeFroms label only first hbody hfirst =>
    have honly := (hs body (by simp)).statements only (by simp [hbody])
    have hcome : (plain .optComeFrom comeFroms.children).All P :=
      hP.all_plain (by simp [innerKinds]) fun _ => (hs comeFroms (by simp)).of_mem
    have hlabel : (plain .optLabel [label]).All P :=
      hP.all_plain (by simp [innerKinds]) (by simpa using hs label (by simp))
    refine all_tree.2 ⟨hnode, ?_⟩
    simp [hs condition (by simp), hs jump (by simp), honly.child? hfirst, hcome, hlabel]
  | @withCurrentBuffer save body unbind first expr optDiscard discard buffer set rest idiom hbody
      hfirst hu hdiscard =>
    have hstatements := (hs body (by simp)).statements
    have hall : first.All P := hstatements first (by simp [hbody])
    have hset := (hall.of_mem (c := expr) (by simp [hfirst])).of_unwrap hu
    have hopt : optDiscard.All P := hall.of_mem (by simp [hfirst])
    have hrest : (plain .exprs rest).All P :=
      hP.all_plain (by simp [innerKinds]) fun s hs => hstatements s (by simp [hbody, hs])
    have hparts : ∀ c ∈ [buffer, set], c.All P := fun _ => hset.of_mem
    refine all_tree.2 ⟨hnode, ?_⟩
    simp [hs save (by simp), hs unbind (by simp), hparts buffer (by simp), hparts set (by simp),
      hopt.child? hdiscard, hrest]
  | @withTempBuffer children inner inside rest varlist body first evaluated buffer list idiom
      hvarlist hbinds hbody hstatements hevaluated hu hbuffer hrefers hlist hinside =>
    have hall := (hs body (List.mem_of_getElem? hbody)).statements
    have hform := ((hall first (by simp [hstatements])).child? hevaluated).of_unwrap hu
    have hlist' : list.All P := hform.of_mem (List.mem_of_getElem? hlist)
    have hlines : (plain .exprs (inside ++ rest)).All P := by
      refine hP.all_plain (by simp [innerKinds]) fun s hs => ?_
      rcases List.mem_append.1 hs with hs | hs
      · exact all_unprotected (fun _ => hlist'.of_mem) hinside s hs
      · exact hall s (by simp [hstatements, hs])
    exact all_tree.2 ⟨hnode, by simpa using hlines⟩
  | @dolist children step name head list body hstep hset hname hhead hlist hbody =>
    have hall := (hs body (List.mem_of_getElem? hbody)).statements
    have hlines : (plain .exprs (withoutAdvance body.statements)).All P :=
      hP.all_plain (by simp [innerKinds]) fun s hs => hall s (withoutAdvance_subset _ hs)
    have hname' := (hs step (List.mem_of_getElem? hstep)).child? hname
    have hlist' := (hs head (List.mem_of_mem_head? hhead)).child? hlist
    exact all_tree.2 ⟨hnode, by simp [hname', hlist', hlines]⟩

end Idiom

end ElispLift

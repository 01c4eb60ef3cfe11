import Mathlib.Tactic.Linarith
import ElispLift.Proofs.Source.Levels

/-!
# Rendering comes to an end

Each form renders some of its children, and none of them twice, so it stays within the weight of
them all. With that the levels suffice that are as many as the node weighs. If the tree has its
shape, no form misses a child.
-/

namespace ElispLift

namespace Directive

/-- The number of the child that is rendered, or put on the stack. -/
def visited? : Directive → Option Nat
  | child n | unquoted n | push n => some n
  | _ => none

/-- No template visits a child twice. -/
theorem nodup_template {kind : Nonterminal} {directives : List Directive}
    (h : kind.template? = some directives) : (directives.filterMap visited?).Nodup := by
  cases kind <;> cases h <;> decide

/-- Only a loop puts a child on the stack, its first. -/
theorem push_mem_template {kind : Nonterminal} {directives : List Directive} {n : Nat}
    (h : kind.template? = some directives) (hn : push n ∈ directives) :
    kind = .whileForm1 ∧ n = 0 := by
  cases kind <;> cases h <;> simp_all [call, setq, block]

end Directive

namespace Rendering

open Node

variable {shaped : Prop} {most levels cost : Nat} {render : Node → Rendering Unit} {node : Node}
  {nodes : List Node}

/-! ### What forms visit -/

theorem within_leftOver (ids : List Nat) : Within shaped most levels cost (leftOver ids) := by
  induction ids generalizing cost with
  | nil => exact .pure []
  | cons id ids ih =>
    have htake : Within shaped most levels 0 (takeSlot id) :=
      .free (.free .get fun _ => .pure _) fun _ =>
        .free (.modify (fun _ => List.Sublist.refl _) fun _ => rfl) fun _ => .pure _
    refine htake.free fun text => .free ih fun rest => ?_
    cases text <;> exact .pure _

theorem within_lastPart {part : Rendering Unit} (hpart : Within shaped most levels cost part) :
    Within shaped most levels cost (lastPart part) :=
  .free (.indentTo _) fun _ => .free .newline fun _ => .bind_free hpart fun _ => .closeForm

theorem weightSum_clauses_le {reading : Nat} :
    weightSum reading (clauses node) ≤ weightSum reading node.children := by
  unfold clauses
  induction node.children with
  | nil => exact Nat.le_refl _
  | cons c rest ih =>
    rw [List.flatMap_cons, weightSum_append, weightSum]
    refine Nat.add_le_add ?_ ih
    split
    · exact weightSum_children_le
    · split
      · exact Nat.le_of_eq (Nat.add_zero _)
      · exact Nat.zero_le _

theorem ready_clauses (hnode : node.Fair shaped most) :
    ∀ c ∈ clauses node, c.Ready shaped most := by
  intro c hc
  obtain ⟨part, hpart, hc⟩ := List.mem_flatMap.1 hc
  have hfair := hnode.of_mem hpart
  split at hc
  next hkind =>
    exact hfair.ready (fun hs => (hfair.fits hs).fits_of_isKind hkind) c hc
  next =>
    split at hc
    next hkind =>
      obtain rfl := List.mem_singleton.1 hc
      refine ⟨hfair, fun _ => ?_⟩
      rcases Bool.or_eq_true_iff.1 hkind with hkind | hkind <;> rw [role_of_isKind hkind] <;> rfl
    next => simp at hc

/-- The values of nested bindings are parts of the innermost list, none of them twice. -/
theorem nestedBindings_fair (hnode : node.Fair shaped most)
    (hrole : shaped → node.role = .known .varlistStackedInner) :
    (∀ b ∈ nestedBindings node, b.2.Fair shaped most ∧
      (shaped → (b.2.children.map role)[0]?.any Role.isRendered = true)) ∧
      ((nestedBindings node).map fun b => weightAt most b.2.children 0).sum ≤ node.weight most := by
  fun_induction nestedBindings node with
  | case1 kind value inner name idiom ih =>
    have hinner : inner.Fair shaped most := hnode.of_mem (by simp [Node.children])
    have hfits : shaped → value.role.isRendered = true ∧
        inner.role = .known .varlistStackedInner := fun hs => by
      have hfit := (hnode.fits hs).fits_of_role (hrole hs)
      simpa [Nonterminal.fits, Node.children] using hfit
    obtain ⟨hbelow, hweight⟩ := ih hinner fun hs => (hfits hs).2
    refine ⟨?_, ?_⟩
    · intro b hb
      rcases List.mem_cons.1 hb with rfl | hb
      · exact ⟨hnode, fun hs => (hfits hs).1⟩
      · exact hbelow b hb
    · have hlt : weightSum most [value, inner, name] <
          (Node.tree kind [value, inner, name] idiom).weight most := weightSum_lt
      simp only [weightSum] at hlt
      rw [List.map_cons, List.sum_cons]
      change value.weight most + _ ≤ _
      omega
  | case2 => simp

theorem dropOperands_sublist (n : Nat) (values : List StackValue) :
    (dropOperands n values).Sublist values := by
  fun_induction dropOperands n values with
  | case1 n v rest _ ih => exact ih.cons v
  | case2 n v rest _ => exact .refl _
  | case3 => exact .refl _

theorem within_arguments (texts : List String) :
    Within shaped most levels cost (writeArguments texts) := by
  induction texts with
  | nil => exact .write _
  | cons text rest ih => exact .free (.write _) fun _ => ih

/-- What a clause writes behind its condition, given the text of its body. -/
theorem within_clauseEnd (body : Node) (text : String) :
    Within shaped most levels cost (do
      if !text.isEmpty then
        if body.lines.length > 1 then newline else write " "
        write text
      closeForm) := by
  dsimp only
  split
  · split
    · exact .free .newline fun _ => .free (.write _) fun _ => .closeForm
    · exact .free (.write _) fun _ => .free (.write _) fun _ => .closeForm
  · exact .closeForm

/-- Every operand has a text. -/
theorem length_toOperands {firstUnquoted : Bool} {texts : List String} {p p' : Page}
    (h : toOperands render firstUnquoted nodes p = some (texts, p')) :
    texts.length = nodes.length := by
  induction nodes generalizing firstUnquoted texts p p' with
  | nil =>
    cases h
    rfl
  | cons c rest ih =>
    obtain ⟨text, p₁, -, h⟩ := exists_of_run_bind h
    obtain ⟨-, p₂, -, h⟩ := exists_of_run_bind h
    obtain ⟨later, p₃, hlater, h⟩ := exists_of_run_bind h
    cases h
    simp [ih hlater]

theorem length_operands {firstUnquoted : Bool} {texts : List String} {p p' : Page}
    (h : operands render firstUnquoted nodes p = some (texts, p')) :
    texts.length = nodes.length := by
  obtain ⟨found, p₁, hfound, h⟩ := exists_of_run_bind h
  obtain ⟨-, p₂, -, h⟩ := exists_of_run_bind h
  cases h
  exact length_toOperands hfound

section

variable (hrender : Renders shaped most levels render)

include hrender

/-! ### Children and templates -/

theorem within_child {n : Nat} (hnode : node.Fair shaped most)
    (hfit : shaped → (node.children.map role)[n]?.any Role.isRendered = true) :
    Within shaped most levels (weightAt most node.children n) (child render node n) := by
  unfold child
  cases hc : node.child? n with
  | none => exact .missing (not_shaped hfit hc)
  | some c =>
    rw [weightAt_child hc]
    exact hrender c (hnode.ready_child hfit hc)

/-- A node that is put on the stack must read nothing of the stack. -/
theorem within_directive {d : Directive} (hnode : node.Fair shaped most)
    (hfit : shaped → d.fits (node.children.map role) = true)
    (hquiet : ∀ n c, d = .push n → node.child? n = some c → c.isQuiet = true) :
    Within shaped most levels ((d.visited?.map (weightAt most node.children)).getD 0)
      (directive render node d) := by
  cases d with
  | text s => exact .write s
  | child n => exact within_child hrender hnode hfit
  | unquoted n =>
    change Within _ _ _ (weightAt most node.children n) _
    cases hc : node.child? n with
    | none =>
      simp only [directive, hc]
      exact .missing (not_shaped hfit hc)
    | some c =>
      simp only [directive, hc]
      rw [weightAt_child hc]
      exact (hrender c (hnode.ready_child hfit hc)).withUnquoted
  | operand n =>
    cases hc : node.child? n with
    | none =>
      simp only [directive, hc]
      refine .missing fun hs => ?_
      obtain ⟨c, hc'⟩ := isSome_role.1 (hfit hs)
      cases hc'.symm.trans hc
    | some c =>
      simp only [directive, hc]
      exact .write _
  | push n =>
    change Within _ _ _ (weightAt most node.children n) _
    cases hc : node.child? n with
    | none =>
      simp only [directive, hc]
      have hgap : ¬ shaped := not_shaped hfit hc
      exact .free (.issue fun hs => (hgap hs).elim) fun _ =>
        (Within.push (by simp)).mono (Nat.zero_le _)
    | some c =>
      simp only [directive, hc]
      have hc' := hquiet n c rfl hc
      rw [weightAt_child hc, weight_of_isQuiet hc']
      have hstored : c.Stored shaped most := ⟨hnode.ready_child hfit hc, hc'⟩
      exact Within.push (v := .node c) fun n hn => StackValue.node.inj hn ▸ hstored
  | pop => exact .free (within_pop hrender) fun s => .write s
  | indentation => exact .free .get fun p => .write _
  | indentMore => exact .indentTo _
  | dedent => exact .dedent
  | openForm => exact .openForm
  | closeForm => exact .closeForm

theorem within_fill {directives : List Directive} (hnode : node.Fair shaped most)
    (hfit : shaped → directives.all (Directive.fits (node.children.map role)) = true)
    (hquiet : ∀ n c, .push n ∈ directives → node.child? n = some c → c.isQuiet = true) :
    Within shaped most levels
      ((directives.filterMap Directive.visited?).map (weightAt most node.children)).sum
      (fill render node directives) := by
  induction directives with
  | nil => exact .pure ()
  | cons d rest ih =>
    have hd := within_directive hrender hnode
      (fun hs => (Bool.and_eq_true_iff.1 ((List.all_cons ..) ▸ hfit hs)).1)
      fun n c hpush => hquiet n c (by simp [hpush])
    have hrest := ih (fun hs => (Bool.and_eq_true_iff.1 ((List.all_cons ..) ▸ hfit hs)).2)
      fun n c hpush => hquiet n c (List.mem_cons_of_mem _ hpush)
    refine (hd.bind fun _ => hrest).mono (Nat.le_of_eq ?_)
    cases hvisited : d.visited? <;> simp [hvisited]

/-- The first of some children that may all be rendered. -/
theorem within_firstChild (hnode : node.Fair shaped most)
    (hfit : shaped → ((node.children.map role).all Role.isRendered &&
      !(node.children.map role).isEmpty) = true) :
    Within shaped most levels (node.weight most) (child render node 0) := by
  have hle := sum_weightAt_le most [0] node.children (by decide)
  refine (within_child hrender hnode fun hs => ?_).mono (hle.trans weightSum_children_le)
  have hall := hfit hs
  cases hchildren : node.children with
  | nil => simp [hchildren] at hall
  | cons first rest =>
    rw [hchildren] at hall
    exact (Bool.and_eq_true_iff.1 (Bool.and_eq_true_iff.1 hall).1).1

/-! ### Lists of nodes -/

theorem within_each (h : ∀ c ∈ nodes, c.Ready shaped most) :
    Within shaped most levels (weightSum most nodes) (each render nodes) := by
  induction nodes with
  | nil => exact .pure ()
  | cons c rest ih =>
    exact (hrender c (h c (by simp))).bind fun _ => ih fun n hn => h n (List.mem_cons_of_mem _ hn)

theorem within_eachOnLine (h : ∀ c ∈ nodes, c.Ready shaped most) :
    Within shaped most levels (weightSum most nodes) (eachOnLine render nodes) := by
  induction nodes with
  | nil => exact .pure ()
  | cons c rest ih =>
    have hc := hrender c (h c (by simp))
    cases rest with
    | nil => exact hc
    | cons next rest =>
      have hrest := ih fun n hn => h n (List.mem_cons_of_mem _ hn)
      exact hc.bind fun _ => .free .newline fun _ => hrest

theorem within_toSlots (h : ∀ c ∈ nodes, c.Ready shaped most) :
    Within shaped most levels (weightSum most nodes) (toSlots render nodes) := by
  induction nodes with
  | nil => exact .pure []
  | cons c rest ih =>
    have hrest := ih fun n hn => h n (List.mem_cons_of_mem _ hn)
    have hslot : ∀ text, Within shaped most levels 0 (newSlot text) := fun text =>
      .free .get fun p => .free (.modify (fun _ => List.Sublist.refl _) fun _ => rfl) fun _ =>
        .pure _
    have hlater : ∀ id : Nat, Within shaped most levels (weightSum most rest)
        (do return id :: (← toSlots render rest)) := fun id =>
      .bind_free hrest fun _ => .pure _
    refine (hrender c (h c (by simp))).capture.bind fun text => (hslot text).free fun id => ?_
    split
    · exact .free (.push (v := .slot id) (by simp)) fun _ => hlater id
    · exact hlater id

theorem within_statements (h : ∀ c ∈ nodes, c.Ready shaped most) :
    Within shaped most levels (weightSum most nodes) (statements render nodes) := by
  refine .bind_free (within_toSlots hrender h) fun ids => ?_
  refine .free (.modify (fun _ => List.filter_sublist) fun _ => rfl) fun _ => ?_
  exact (within_leftOver ids).free fun texts => .free .get fun p => .write _

theorem within_routineBody (hnode : node.Fair shaped most)
    (hfit : shaped → Nonterminal.fits .fnBody (node.children.map role) = true) :
    Within shaped most levels (weightSum most node.children) (routineBody render node) := by
  unfold routineBody
  cases hchildren : node.children with
  | nil => exact .missing fun hs => by simpa [hchildren, Nonterminal.fits] using hfit hs
  | cons body tail =>
    have hbody : body.Fair shaped most := hnode.of_mem (by simp [hchildren])
    have hall := hnode.ready fun hs => (Bool.and_eq_true_iff.1 (hfit hs)).1
    have hrole : shaped → body.role = .known .body := fun hs => by
      simpa [hchildren] using (Bool.and_eq_true_iff.1 (hfit hs)).2
    refine (within_statements hrender fun c hc => ?_).mono ?_
    · rcases List.mem_append.1 hc with hc | hc
      · exact hbody.ready_lines hrole c hc
      · exact hall c (by simp [hchildren, hc])
    · rw [weightSum_append, weightSum]
      exact Nat.add_le_add_right weightSum_lines_le _

theorem within_stackedBody (hnode : node.Fair shaped most)
    (hfit : shaped → Nonterminal.fits .bodyStacked (node.children.map role) = true) :
    Within shaped most levels (weightSum most node.children) (stackedBody render node) := by
  have hready := hnode.ready fun hs => (Bool.and_eq_true_iff.1 (hfit hs)).1
  have htail : (∀ c ∈ ((node.child? 2).map children).getD [], c.Ready shaped most) ∧
      weightSum most (((node.child? 2).map children).getD []) ≤
        weightAt most node.children 2 := by
    cases hlist : node.child? 2 with
    | none => exact ⟨by simp, Nat.zero_le _⟩
    | some list =>
      rw [weightAt_child hlist]
      refine ⟨(hnode.child? hlist).ready_items fun hs => ?_, weightSum_children_le⟩
      have hroles := (Bool.and_eq_true_iff.1 (hfit hs)).2
      rw [List.getElem?_map, show node.children[2]? = some list from hlist] at hroles
      exact of_decide_eq_true hroles
  have hhead : weightSum most (node.children.take 1) = weightAt most node.children 0 := by
    cases node.children <;> rfl
  have hle := sum_weightAt_le most [0, 2] node.children (by decide)
  refine (within_statements hrender fun c hc => ?_).mono ?_
  · rcases List.mem_append.1 hc with hc | hc
    · exact hready c (List.mem_of_mem_take hc)
    · exact htail.1 c hc
  · rw [weightSum_append, hhead]
    exact (Nat.add_le_add_left htail.2 _).trans hle

/-! ### Applications -/

theorem within_unary (hnode : node.Fair shaped most)
    (hfit : shaped → ((node.children.map role).all Role.isRendered &&
      !(node.children.map role).isEmpty) = true) :
    Within shaped most levels (weightSum most node.children) (unary render node) := by
  have hready := hnode.ready fun hs => (Bool.and_eq_true_iff.1 (hfit hs)).1
  have hpop : Within shaped most levels 0 (do write (← pop render); write ")") :=
    .free (within_pop hrender) fun _ => .free (.write _) fun _ => .write _
  unfold unary
  cases hlast : node.children.getLast? with
  | none =>
    refine .missing fun hs => ?_
    have hempty : node.children = [] := List.getLast?_eq_none_iff.1 hlast
    simpa [hempty] using (hfit hs)
  | some op =>
    have hop : op ∈ node.children := List.mem_of_getLast? hlast
    have hweight : op.weight most ≤ weightSum most node.children := weight_le_weightSum hop
    refine .free (.write _) fun _ => ?_
    dsimp only
    split
    next argument head hchildren =>
      obtain rfl : head = op := by simpa [hchildren] using hlast
      have hargument : Within shaped most levels (argument.weight most)
          (if argument.isOp .stackAccess then do
            write (← pop render)
            write ")"
          else do
            render argument
            write ")") := by
        split
        · exact hpop.mono (Nat.zero_le _)
        · exact .bind_free (hrender argument (hready _ (by simp [hchildren]))) fun _ =>
            .write _
      refine (Within.bind (hrender head (hready _ hop)) fun _ => .free (.write _) fun _ =>
        hargument).mono ?_
      simp only [hchildren, weightSum]
      omega
    next =>
      exact (Within.bind (hrender op (hready _ hop)) fun _ => .free (.write _) fun _ =>
        hpop).mono (by omega)

theorem within_binaryStacked (hnode : node.Fair shaped most)
    (hfit : shaped → Nonterminal.fits .binaryExprStacked (node.children.map role) = true)
    (hcost : weightSum most node.children +
      (if ¬ node.children.dropLast.any isTree then weightOfLast most node.children else 0) ≤ cost) :
    Within shaped most levels cost (binaryStacked render node) := by
  have hready := hnode.ready fun hs => (Bool.and_eq_true_iff.1 (hfit hs)).1
  unfold binaryStacked
  cases hlast : node.children.getLast? with
  | none =>
    refine .missing fun hs => ?_
    have hempty : node.children = [] := List.getLast?_eq_none_iff.1 hlast
    simpa [hempty, Nonterminal.fits] using hfit hs
  | some op =>
    have hop : ∀ operands : String × String, Within shaped most levels (op.weight most) (do
        write "("
        render op
        write (" " ++ operands.1 ++ " " ++ operands.2 ++ ")")) := fun _ =>
      .free (.write _) fun _ =>
        .bind_free (hrender op (hready op (List.mem_of_getLast? hlast))) fun _ => .write _
    have hsum : weightSum most node.children ≤ cost := (Nat.le_add_right _ _).trans hcost
    dsimp only
    split
    next second head hchildren =>
      obtain rfl : head = op := by simpa [hchildren] using hlast
      have hsecond := (hrender second (hready _ (by simp [hchildren]))).capture
      refine (Within.bind hsecond fun s => .free (within_pop hrender) fun first =>
        .free (.pure (first, s)) fun operands => hop operands).mono (le_trans ?_ hsum)
      simp only [hchildren, weightSum]
      omega
    next =>
      refine .free (within_pop hrender) fun first => ?_
      split
      next second hfound =>
        have hsecond := hrender second (hready _ (List.mem_of_find?_eq_some hfound))
        exact (Within.bind hsecond.capture fun s => .free (.pure (first, s)) fun operands =>
          hop operands).mono ((weight_add_last_le hfound hlast).trans hcost)
      next =>
        exact (Within.free (.pure (first, missingText)) fun operands => hop operands).mono
          ((weight_le_weightSum (List.mem_of_getLast? hlast)).trans hsum)

theorem within_progn {body : Node} (hbody : body.Ready shaped most) :
    Within shaped most levels (body.weight most) (progn render body) := by
  unfold progn
  split
  · exact hrender body hbody
  · exact .free (.write _) fun _ => .free (.indentTo _) fun _ => .free .newline fun _ =>
      .bind_free (hrender body hbody) fun _ => .closeForm

theorem within_ifElse (hnode : node.Fair shaped most)
    (hfit : shaped → Nonterminal.fits .ifElseForm (node.children.map role) = true) :
    Within shaped most levels (weightSum most node.children) (ifElse render node) := by
  have hfit' : shaped → (node.children.map role)[0]?.any Role.isRendered = true ∧
      (node.children.map role)[2]?.any Role.isRendered = true ∧
      (node.children.map role)[6]?.any Role.isRendered = true := fun hs => by
    simpa only [Nonterminal.fits, Bool.and_eq_true, and_assoc] using hfit hs
  have hno : Within shaped most levels (weightAt most node.children 6)
      (do dedent; newline; child render node 6; closeForm) :=
    .free .dedent fun _ => .free .newline fun _ =>
      .bind_free (within_child hrender hnode fun hs => (hfit' hs).2.2) fun _ => .closeForm
  have hle := sum_weightAt_le most [0, 2, 6] node.children (by decide)
  refine Within.mono (.free .openForm fun _ => .free (.write _) fun _ =>
    .bind (within_child hrender hnode fun hs => (hfit' hs).1) fun _ =>
      .free (.indentTo _) fun _ => .free (.indentTo _) fun _ => .free .newline fun _ => ?_) hle
  cases hc : node.child? 2 with
  | none => exact .bind (.missing (not_shaped (fun hs => (hfit' hs).2.1) hc)) fun _ => hno
  | some yes =>
    have hyes := within_progn hrender (hnode.ready_child (fun hs => (hfit' hs).2.1) hc)
    rw [← weightAt_child hc] at hyes
    exact .bind hyes fun _ => hno

/-! ### Clauses -/

theorem within_cond (hnode : node.Fair shaped most) :
    Within shaped most levels (weightSum most node.children) (cond render node) := by
  have hclauses := within_eachOnLine hrender (ready_clauses hnode)
  exact .free .openForm fun _ => .free (.write _) fun _ => .free (.indentTo _) fun _ =>
    .bind_free (hclauses.mono weightSum_clauses_le) fun _ => .closeForm

theorem within_clause {condition body : Nat} (hnode : node.Fair shaped most)
    (hne : condition ≠ body)
    (hfit : shaped → ((node.children.map role)[condition]?.isSome &&
      (node.children.map role)[body]?.any Role.isRendered) = true) :
    Within shaped most levels (weightSum most node.children)
      (clause render node condition body) := by
  have hrendered : shaped → (node.children.map role)[body]?.any Role.isRendered = true :=
    fun hs => (Bool.and_eq_true_iff.1 (hfit hs)).2
  unfold clause
  split
  next conditionNode bodyNode hcondition hbody =>
    have hcond : conditionNode.isKind .condition = true →
        Within shaped most levels (conditionNode.weight most) (child render conditionNode 0) :=
      fun hkind => within_firstChild hrender (hnode.child? hcondition) fun hs =>
        ((hnode.child? hcondition).fits hs).fits_of_isKind hkind
    have hrest := (hrender bodyNode (hnode.ready_child hrendered hbody)).capture.bind_free
      fun text => within_clauseEnd bodyNode text
    have hle := sum_weightAt_le most [condition, body] node.children (by simpa using hne)
    simp only [List.map_cons, List.map_nil, List.sum_cons, List.sum_nil, weightAt_child hcondition,
      weightAt_child hbody] at hle
    refine Within.mono (.free (.write _) fun _ => .free (.indentTo _) fun _ => ?_) hle
    dsimp only
    split
    next hkind => exact .bind (hcond hkind) fun _ => hrest
    next => exact .bind (.write _) fun _ => hrest
  next hnone =>
    refine .missing fun hs => ?_
    obtain ⟨c, hc⟩ := isSome_role.1 (Bool.and_eq_true_iff.1 (hfit hs)).1
    obtain ⟨b, hb, -⟩ := any_role.1 (hrendered hs)
    exact hnone c b hc hb

/-! ### Bindings -/

theorem within_binding (hnode : node.Fair shaped most)
    (hfit : shaped → (node.children.map role)[0]?.any Role.isRendered = true) :
    Within shaped most levels (weightSum most node.children) (binding render node) := by
  have hle := sum_weightAt_le most [0] node.children (by decide)
  exact (Within.free (.write _) fun _ => .bind_free (within_child hrender hnode hfit)
    fun _ => .write _).mono hle

theorem within_letStar (hnode : node.Fair shaped most)
    (hfit : shaped → Nonterminal.fits .letFormStar (node.children.map role) = true) :
    Within shaped most levels (weightSum most node.children) (letStar render node) := by
  have hlist : shaped → (node.children.map role)[0]?.any (· = .known .varlist) = true :=
    fun hs => (Bool.and_eq_true_iff.1 (hfit hs)).1
  have hbody : shaped → (node.children.map role)[1]?.any Role.isRendered = true := fun hs => by
    obtain ⟨c, hc, hrole⟩ := any_role.1 (Bool.and_eq_true_iff.1 (hfit hs)).2
    exact any_role.2 ⟨c, hc, by rw [of_decide_eq_true hrole]; rfl⟩
  have hle := sum_weightAt_le most [0, 1] node.children (by decide)
  unfold letStar
  cases hc : node.child? 0 with
  | none => exact .missing (not_shaped hlist hc)
  | some varlist =>
    have hready : ∀ c ∈ varlist.children, c.Ready shaped most :=
      (hnode.child? hc).ready fun hs =>
        ((hnode.child? hc).fits hs).fits_of_role (role_eq_of_any (hlist hs) hc)
    have hbindings := (within_eachOnLine hrender hready).mono weightSum_children_le
    rw [← weightAt_child hc] at hbindings
    refine Within.mono ?_ hle
    exact .free .openForm fun _ => .free (.write _) fun _ => .free (.write _) fun _ =>
      .free (.indentTo _) fun _ => .bind hbindings fun _ => .free .closeForm fun _ =>
        within_lastPart (within_child hrender hnode hbody)

theorem within_eachBinding {bindings : List (String × Node)}
    (h : ∀ b ∈ bindings, b.2.Fair shaped most ∧
      (shaped → (b.2.children.map role)[0]?.any Role.isRendered = true)) :
    Within shaped most levels (bindings.map fun b => weightAt most b.2.children 0).sum
      (eachBinding render bindings) := by
  induction bindings with
  | nil => exact .pure ()
  | cons b rest ih =>
    obtain ⟨hfair, hfit⟩ := h b (by simp)
    have hrest := ih fun b hb => h b (List.mem_cons_of_mem _ hb)
    refine .free (.write _) fun _ => .bind (within_child hrender hfair hfit) fun _ =>
      .free (.write _) fun _ => ?_
    dsimp only
    split
    · exact .free .newline fun _ => hrest
    · exact hrest

/-- The value of a stacked list and those of the bindings nested in it. -/
theorem within_stackedBindings (hnode : node.Fair shaped most)
    (hfit : shaped → Nonterminal.fits .varlistStacked (node.children.map role) = true) :
    Within shaped most levels (node.weight most) (eachBinding render
      ((nameText (node.child? 3), node) :: ((node.child? 1).map nestedBindings).getD [])) := by
  have hnested : (∀ b ∈ ((node.child? 1).map nestedBindings).getD [], b.2.Fair shaped most ∧
      (shaped → (b.2.children.map role)[0]?.any Role.isRendered = true)) ∧
      ((((node.child? 1).map nestedBindings).getD []).map
        fun b => weightAt most b.2.children 0).sum ≤ weightAt most node.children 1 := by
    cases hinner : node.child? 1 with
    | none => exact ⟨by simp, Nat.zero_le _⟩
    | some inner =>
      rw [weightAt_child hinner]
      exact nestedBindings_fair (hnode.child? hinner) fun hs =>
        role_eq_of_any (Bool.and_eq_true_iff.1 (hfit hs)).2 hinner
  refine (within_eachBinding hrender fun b hb => ?_).mono ?_
  · rcases List.mem_cons.1 hb with rfl | hb
    · exact ⟨hnode, fun hs => (Bool.and_eq_true_iff.1 (hfit hs)).1⟩
    · exact hnested.1 b hb
  · have hle := sum_weightAt_le most [0, 1] node.children (by decide)
    have hchildren : weightSum most node.children ≤ node.weight most := weightSum_children_le
    simp only [List.map_cons, List.map_nil, List.sum_cons, List.sum_nil] at hle ⊢
    omega

theorem within_letStacked (hnode : node.Fair shaped most)
    (hfit : shaped → Nonterminal.fits .letFormStacked (node.children.map role) = true) :
    Within shaped most levels (weightSum most node.children) (letStacked render node) := by
  have hlist : shaped → (node.children.map role)[0]?.any (· = .known .varlistStacked) = true :=
    fun hs => (Bool.and_eq_true_iff.1 (hfit hs)).1
  have hbody : shaped → (node.children.map role)[1]?.any Role.isRendered = true :=
    fun hs => (Bool.and_eq_true_iff.1 (hfit hs)).2
  have hle := sum_weightAt_le most [0, 1] node.children (by decide)
  unfold letStacked
  cases hc : node.child? 0 with
  | none => exact .missing (not_shaped hlist hc)
  | some varlist =>
    have hbindings := within_stackedBindings hrender (hnode.child? hc) fun hs =>
      ((hnode.child? hc).fits hs).fits_of_role (role_eq_of_any (hlist hs) hc)
    rw [← weightAt_child hc] at hbindings
    refine Within.mono ?_ hle
    exact .free .openForm fun _ => .free (.write _) fun _ => .free (.indentTo _) fun _ =>
      .bind hbindings fun _ => .free .closeForm fun _ => .free .get fun p =>
        .free (.push (v := .text _) (by simp)) fun _ =>
          .bind_free (within_lastPart (within_child hrender hnode hbody)) fun _ =>
            .modify (fun _ => List.drop_sublist _ _) fun _ => rfl

/-- A loop over a list. The list is in a node of its own. -/
theorem within_dolistExpansion (hnode : node.Fair shaped most)
    (hfit : shaped → (node.children.map role)[0]?.any (· = .known .dolistList) = true ∧
      (node.children.map role)[6]?.any Role.isRendered = true)
    (hresult : node.isKind .dolistMacroResult = true → shaped →
      (node.children.map role)[16]?.any Role.isRendered = true) :
    Within shaped most levels (weightSum most node.children) (dolistExpansion render node) := by
  have hsome : shaped → (node.children.map role)[0]?.any (· = .known .dolistList) = true :=
    fun hs => (hfit hs).1
  have hbody : Within shaped most levels (weightAt most node.children 6) (do
      write ")"
      lastPart (child render node 6)) :=
    .free (.write _) fun _ => within_lastPart (within_child hrender hnode fun hs => (hfit hs).2)
  have hend : Within shaped most levels
      (weightAt most node.children 16 + weightAt most node.children 6) (do
        if node.isKind .dolistMacroResult then
          write " "
          child render node 16
        write ")"
        lastPart (child render node 6)) := by
    dsimp only
    split
    next hkind =>
      exact .free (.write _) fun _ => .bind (within_child hrender hnode (hresult hkind)) fun _ =>
        hbody
    next => exact hbody.mono (Nat.le_add_left _ _)
  have hle := sum_weightAt_le most [0, 16, 6] node.children (by decide)
  refine Within.mono (.free .openForm fun _ => .free (.write _) fun _ => ?_) hle
  cases hc : node.child? 0 with
  | none => exact .bind (.missing (not_shaped hsome hc)) fun _ => hend
  | some list =>
    have hlist := within_firstChild hrender (hnode.child? hc) fun hs =>
      ((hnode.child? hc).fits hs).fits_of_role (role_eq_of_any (hsome hs) hc)
    rw [← weightAt_child hc] at hlist
    exact .bind hlist fun _ => hend

theorem within_toOperands (firstUnquoted : Bool) (h : ∀ c ∈ nodes, c.Ready shaped most) :
    Within shaped most levels (weightSum most nodes) (toOperands render firstUnquoted nodes) := by
  induction nodes generalizing firstUnquoted with
  | nil => exact .pure []
  | cons c rest ih =>
    have hrest := ih false fun n hn => h n (List.mem_cons_of_mem _ hn)
    exact (hrender c (h c (by simp))).capture.withUnquoted.bind fun text =>
      .free (.push (v := .operand text) (by simp)) fun _ => .bind_free hrest fun _ => .pure _

theorem within_operands (firstUnquoted : Bool) (h : ∀ c ∈ nodes, c.Ready shaped most) :
    Within shaped most levels (weightSum most nodes) (operands render firstUnquoted nodes) :=
  .bind_free (within_toOperands hrender firstUnquoted h) fun _ =>
    .free (.modify (fun p => dropOperands_sublist _ p.values) fun _ => rfl) fun _ => .pure _

theorem within_application (hnode : node.Fair shaped most)
    (hfit : shaped → ((node.children.map role).all Role.isRendered &&
      !(node.children.map role).isEmpty) = true) :
    Within shaped most levels (weightSum most node.children) (application render node) := by
  have hready := hnode.ready fun hs => (Bool.and_eq_true_iff.1 (hfit hs)).1
  unfold application
  cases hlast : node.children.getLast? with
  | none =>
    refine .missing fun hs => ?_
    have hempty : node.children = [] := List.getLast?_eq_none_iff.1 hlast
    simpa [hempty] using (hfit hs)
  | some op =>
    obtain ⟨args, hchildren⟩ := List.getLast?_eq_some_iff.1 hlast
    have hargs := within_operands hrender false fun c (hc : c ∈ args) =>
      hready c (by simp [hchildren, hc])
    have hop := hrender op (hready op (by simp [hchildren]))
    rw [hchildren, weightSum_append, List.dropLast_concat]
    exact hargs.bind fun texts => .free (.write _) fun _ =>
      .bind_free hop fun _ => within_arguments texts

theorem within_countedApplication {family : Family} (hnode : node.Fair shaped most)
    (hfit : shaped → Nonterminal.fits (.counted family) (node.children.map role) = true) :
    Within shaped most levels (weightSum most node.children)
      (countedApplication render node family) := by
  have hall : shaped → (node.children.map role).all Role.isRendered = true := fun hs => by
    have hall := hfit hs
    cases family <;> simp_all [Nonterminal.fits]
  have hcallee : family = .call → shaped → node.children.filter isTree ≠ [] := by
    rintro rfl hs hnone
    obtain ⟨c, hc, htree⟩ : ∃ c ∈ node.children, c.role.isTree = true := by
      simpa using (Bool.and_eq_true_iff.1 (hfit hs)).2
    have hmem : c ∈ node.children.filter isTree := by
      cases c with
      | token i => cases htree
      | tree kind children idiom => exact List.mem_filter.2 ⟨hc, rfl⟩
    simp [hnone] at hmem
  have hready : ∀ c ∈ node.children.filter isTree, c.Ready shaped most :=
    fun c hc => hnode.ready hall c (List.mem_of_mem_filter hc)
  have hoperands := (within_operands hrender (family = .call) hready).mono
    (weightSum_sublist List.filter_sublist)
  rw [← Nat.add_zero (weightSum most node.children)]
  refine .bind_of_run hoperands fun texts p p' hrun => .free (.write _) fun _ => ?_
  split
  · exact .free (.write _) fun _ => within_arguments _
  · refine .free (.missing fun hs => hcallee rfl hs ?_) fun _ => within_arguments _
    exact List.length_eq_zero_iff.1 (length_operands hrun).symm
  · exact .free (.write _) fun _ => within_arguments _

/-! ### All nodes -/

theorem within_template {kind : Nonterminal} {children : List Node} {idiom : Option Idiom}
    {directives : List Directive} (h : kind.template? = some directives)
    (hnode : (Node.tree kind children idiom).Fair shaped most)
    (hfit : shaped → kind.fitsTemplate (children.map role) = true) :
    Within shaped most levels (weightSum most children)
      (fill render (.tree kind children idiom) directives) := by
  have hfit' : shaped → directives.all (Directive.fits (children.map role)) = true := fun hs => by
    simpa [Nonterminal.fitsTemplate, h] using hfit hs
  refine (within_fill hrender hnode hfit' fun n c hpush hc => ?_).mono
    (sum_weightAt_le most _ children (Directive.nodup_template h))
  obtain ⟨rfl, rfl⟩ := Directive.push_mem_template h hpush
  exact startsQuiet_tree.1 (loopsStartQuiet_tree.1 hnode.loops).1 rfl c
    (List.head?_eq_getElem?.trans hc)

theorem within_tree {kind : Nonterminal} {children : List Node} {idiom : Option Idiom}
    (hnode : (Node.tree kind children idiom).Ready shaped most)
    (hkind : kind ≠ .binaryExprStacked) :
    Within shaped most levels (weightSum most children)
      (Rendering.tree render kind (.tree kind children idiom)) := by
  have hfair := hnode.toFair
  have hfit : shaped → kind.fits (children.map role) = true := fun hs =>
    (shaped_tree.1 (hnode.fits hs)).1
  have hfirst := sum_weightAt_le most [0] children (by decide)
  have hsecond := sum_weightAt_le most [1] children (by decide)
  cases kind with
  | exprs | optExprs =>
    refine within_statements hrender (hfair.ready fun hs => all_roles.2 fun c hc => ?_)
    rw [of_decide_eq_true (all_roles.1 (hfit hs) c hc)]
    rfl
  | fnBody => exact within_routineBody hrender hfair hfit
  | bodyStacked => exact within_stackedBody hrender hfair hfit
  | exprStmt => exact (within_child hrender hfair hfit).mono hfirst
  | labeledClause => exact (within_child hrender hfair hfit).mono hsecond
  | unaryExpr | unaryExprStacked => exact within_unary hrender hfair hfit
  | binaryExprStacked => exact (hkind rfl).elim
  | ifElseForm => exact within_ifElse hrender hfair hfit
  | condForm => exact within_cond hrender hfair
  | clause | labeledFinalClause => exact within_clause hrender hfair (by decide) hfit
  | letFormStar => exact within_letStar hrender hfair hfit
  | varbind => exact within_binding hrender hfair hfit
  | letFormStacked => exact within_letStacked hrender hfair hfit
  | dolistMacro =>
    exact within_dolistExpansion hrender hfair
      (fun hs => Bool.and_eq_true_iff.1 (Bool.and_eq_true_iff.1 (hfit hs)).1) nofun
  | dolistMacroResult =>
    exact within_dolistExpansion hrender hfair
      (fun hs => Bool.and_eq_true_iff.1 (Bool.and_eq_true_iff.1 (hfit hs)).1)
      fun _ hs => (Bool.and_eq_true_iff.1 (hfit hs)).2
  | binaryExpr | ternaryExpr => exact within_application hrender hfair hfit
  | counted family => exact within_countedApplication hrender hfair hfit
  | body =>
    refine within_each hrender (hfair.ready fun hs => ?_)
    have hroles : children.map role = [.known .exprs] := of_decide_eq_true (hfit hs)
    change (children.map role).all _ = true
    rw [hroles]
    rfl
  | expr | exprStacked | nameExpr | nullaryOp | unaryOp | binaryOp | ternaryOp =>
    exact within_each hrender (hfair.ready hfit)
  | condition | dolistList =>
    exact within_each hrender (hfair.ready fun hs => (Bool.and_eq_true_iff.1 (hfit hs)).1)
  | varlist | labeledClauses | varlistStacked | varlistStackedInner | dolistInitVar
  | dolistLoopIterSet | dolistLoopIterSetStacking =>
    exact .free (.issue fun hs => nomatch hnode.rendered hs) fun _ => .write _
  | whenMacro | saveCurrentBufferForm | withCurrentBufferMacro | unwindProtectForm =>
    exact within_template hrender rfl hfair fun hs => (Bool.and_eq_true_iff.1 (hfit hs)).1
  | _ => exact within_template hrender rfl hfair hfit

theorem within_form (hnode : node.Ready shaped most) (hcost : node.weight most = cost + 1) :
    Within shaped most levels cost (form render node) := by
  cases node with
  | token i =>
    refine within_instruction hrender fun hreads => ?_
    simp only [weight, hreads, if_true] at hcost
    omega
  | tree kind children idiom =>
    by_cases hkind : kind = .binaryExprStacked
    · subst hkind
      refine within_binaryStacked hrender hnode.toFair
        (fun hs => (shaped_tree.1 (hnode.fits hs)).1) ?_
      simp only [weight, true_and] at hcost
      change weightSum most children + (if ¬ children.dropLast.any isTree then
        weightOfLast most children else 0) ≤ cost
      omega
    · refine (within_tree hrender hnode hkind).mono ?_
      simp only [weight, hkind, false_and, if_false] at hcost
      omega

end

/-- As many levels suffice for a node as it weighs. -/
theorem renders_node (levels : Nat) : Renders shaped most levels (Rendering.node levels) := by
  induction levels with
  | zero =>
    intro n _ p _ hload
    have hpos := weight_pos most n
    omega
  | succ levels ih =>
    intro n hn p hp hload
    obtain ⟨cost, hcost⟩ := Nat.exists_eq_add_one.2 (weight_pos most n)
    obtain ⟨a, p', hrun, hp', hload'⟩ := within_form ih hn hcost p hp (by omega)
    exact ⟨a, p', hrun, hp', by omega⟩

end Rendering

namespace Node

mutual

/-- Each node of a tree at most doubles its weight. -/
theorem weight_lt (reading : Nat) : ∀ node : Node,
    node.weight reading + (reading + 1) ≤ (reading + 1) * 2 ^ node.size
  | token i => by
    rw [weight, size]
    split <;> omega
  | tree kind children idiom => by
    have hsum := weightSum_lt_two_pow reading children
    have hlast := weightOfLast_le reading children
    rw [weight, size, Nat.pow_succ, ← Nat.mul_assoc]
    split <;> omega

theorem weightSum_lt_two_pow (reading : Nat) : ∀ nodes : List Node,
    weightSum reading nodes + (reading + 1) ≤ (reading + 1) * 2 ^ sizeSum nodes
  | [] => by simp [weightSum, sizeSum]
  | node :: rest => by
    have hnode := weight_lt reading node
    have hrest := weightSum_lt_two_pow reading rest
    have hone : 2 ^ node.size + 2 ^ sizeSum rest ≤ 2 ^ node.size * 2 ^ sizeSum rest + 1 := by
      nlinarith [Nat.two_pow_pos node.size, Nat.two_pow_pos (sizeSum rest)]
    have hboth := Nat.mul_le_mul_left (reading + 1) hone
    rw [Nat.mul_add, Nat.mul_add] at hboth
    rw [weightSum, sizeSum, Nat.pow_add]
    omega

theorem weightOfLast_le (reading : Nat) : ∀ nodes : List Node,
    weightOfLast reading nodes ≤ weightSum reading nodes
  | [] => Nat.le_refl _
  | [_] => Nat.le_add_right _ _
  | _ :: next :: rest => (weightOfLast_le reading (next :: rest)).trans (Nat.le_add_left _ _)

end

/-- Every tree is rendered if its loops start with values that do not read the stack. -/
theorem exists_page {tree : Node} {shaped : Prop} (hloops : tree.LoopsStartQuiet)
    (hshaped : shaped → tree.Shaped ∧ tree.role.isRendered = true) (indent : String) :
    ∃ page, Rendering.node tree.maxLevels tree (.start indent) = some ((), page) ∧
      tree.render indent = .ok ⟨Text.spaces page.startColumn ++ page.text, page.issues⟩ ∧
      page.Fair shaped (2 ^ tree.size) := by
  have hlight : tree.weight 0 ≤ 2 ^ tree.size := by
    have hweight := weight_lt 0 tree
    omega
  have hlevels : tree.weight (2 ^ tree.size) ≤ tree.maxLevels :=
    (Nat.le_add_right _ _).trans (weight_lt _ tree)
  have hready : tree.Ready shaped (2 ^ tree.size) :=
    ⟨⟨hloops, hlight, fun hs => (hshaped hs).1⟩, fun hs => (hshaped hs).2⟩
  have hstart : (Page.start indent).Fair shaped (2 ^ tree.size) :=
    ⟨by simp [Page.start], by simp [Page.start]⟩
  obtain ⟨⟨⟩, page, hrun, hpage, -⟩ := Rendering.renders_node tree.maxLevels tree hready
    (Page.start indent) hstart (by simpa [Page.load, Page.start] using hlevels)
  refine ⟨page, hrun, ?_, hpage⟩
  unfold render
  rw [show (Rendering.node tree.maxLevels tree).run (.start indent) = some ((), page) from hrun]

end Node

end ElispLift

import Mathlib.Algebra.BigOperators.Intervals
import Mathlib.Algebra.Order.BigOperators.Group.Finset
import Mathlib.Algebra.Order.BigOperators.Group.List
import ElispLift.Proofs.Source.Shape
import ElispLift.Proofs.Source.Writing

/-!
# Levels of rendering

A value on the stack may be a node that is rendered where it is read, so rendering is no recursion
over the tree. What bounds it is the load of the stack, the weight of the nodes on it: to put a node
on the stack costs its weight, and to take it pays for rendering it. To read a node and leave it
pays for nothing, but a node on the stack reads nothing itself, so this is paid for by the
instruction that reads.
-/

namespace ElispLift

namespace Node

mutual

/-- The levels that rendering a node needs, where an instruction that reads the stack needs
`reading` of them. The operation of a stacked application is rendered as its operand too, if there
is no other tree to render. -/
def weight (reading : Nat) : Node → Nat
  | token i => if i.readsStack then reading + 1 else 1
  | tree kind children _ =>
    weightSum reading children + 1 +
      if kind = .binaryExprStacked ∧ ¬ children.dropLast.any isTree then
        weightOfLast reading children
      else 0

def weightSum (reading : Nat) : List Node → Nat
  | [] => 0
  | node :: rest => node.weight reading + weightSum reading rest

def weightOfLast (reading : Nat) : List Node → Nat
  | [] => 0
  | [node] => node.weight reading
  | _ :: next :: rest => weightOfLast reading (next :: rest)

end

variable {reading : Nat}

theorem weightSum_eq_sum (nodes : List Node) :
    weightSum reading nodes = (nodes.map (weight reading)).sum := by
  induction nodes with
  | nil => rfl
  | cons node rest ih => rw [weightSum, ih, List.map_cons, List.sum_cons]

theorem weight_pos (reading : Nat) (node : Node) : 0 < node.weight reading := by
  cases node with
  | token i => unfold weight; split <;> omega
  | tree kind children idiom => unfold weight; omega

theorem weightSum_lt {kind : Nonterminal} {children : List Node} {idiom : Option Idiom} :
    weightSum reading children < (tree kind children idiom).weight reading := by
  unfold weight
  omega

theorem weight_le_weightSum {node : Node} {nodes : List Node} (h : node ∈ nodes) :
    node.weight reading ≤ weightSum reading nodes := by
  rw [weightSum_eq_sum]
  exact List.le_sum_of_mem (List.mem_map_of_mem h)

theorem weightSum_append (nodes rest : List Node) :
    weightSum reading (nodes ++ rest) = weightSum reading nodes + weightSum reading rest := by
  simp [weightSum_eq_sum]

theorem weightSum_sublist {nodes rest : List Node} (h : nodes.Sublist rest) :
    weightSum reading nodes ≤ weightSum reading rest := by
  rw [weightSum_eq_sum, weightSum_eq_sum]
  exact (h.map _).sum_le_sum fun _ _ => Nat.zero_le _

/-- The weight of a child, or nothing if there is none. -/
def weightAt (reading : Nat) (nodes : List Node) (n : Nat) : Nat :=
  (nodes[n]?.map (weight reading)).getD 0

theorem sum_weightAt (nodes : List Node) :
    ∑ n ∈ Finset.range nodes.length, weightAt reading nodes n = weightSum reading nodes := by
  induction nodes with
  | nil => rfl
  | cons node rest ih =>
    rw [List.length_cons, Finset.sum_range_succ', weightSum, ← ih, Nat.add_comm]
    rfl

/-- Different children are no heavier than all. -/
theorem sum_weightAt_le (reading : Nat) (numbers : List Nat) (nodes : List Node)
    (h : numbers.Nodup) :
    (numbers.map (weightAt reading nodes)).sum ≤ weightSum reading nodes := by
  rw [← List.sum_toFinset _ h, ← sum_weightAt]
  refine Finset.sum_le_sum_of_ne_zero fun n _ hn => ?_
  by_contra hlt
  exact hn (by simp [weightAt, List.getElem?_eq_none (Nat.not_lt.1 (mt Finset.mem_range.2 hlt))])

theorem weightOfLast_append (nodes : List Node) (node : Node) :
    weightOfLast reading (nodes ++ [node]) = node.weight reading := by
  induction nodes with
  | nil => rfl
  | cons first rest ih =>
    cases rest with
    | nil => rfl
    | cons next rest => exact ih

/-- The first tree and the last node of a list. If they are the same node, it counts twice. -/
theorem weight_add_last_le {nodes : List Node} {first last : Node}
    (hfirst : nodes.find? isTree = some first) (hlast : nodes.getLast? = some last) :
    first.weight reading + last.weight reading ≤ weightSum reading nodes +
      if ¬ nodes.dropLast.any isTree then weightOfLast reading nodes else 0 := by
  obtain ⟨before, rfl⟩ := List.getLast?_eq_some_iff.1 hlast
  rw [List.dropLast_concat, weightSum_append, weightOfLast_append]
  rw [List.find?_append] at hfirst
  have hone : weightSum reading [last] = last.weight reading := rfl
  cases hfound : before.find? isTree with
  | some found =>
    obtain rfl : found = first := by simpa [hfound] using hfirst
    have hle : found.weight reading ≤ weightSum reading before :=
      weight_le_weightSum (List.mem_of_find?_eq_some hfound)
    omega
  | none =>
    have hnone : before.any isTree = false := by simpa using hfound
    obtain ⟨-, rfl⟩ : last.isTree = true ∧ last = first := by
      simpa [hfound, List.find?_singleton] using hfirst
    rw [if_pos (by simp [hnone]), hone]
    omega

mutual

/-- What reads nothing is as heavy however much reading is. -/
theorem weight_of_isQuiet : ∀ {node : Node}, node.isQuiet = true →
    node.weight reading = node.weight 0
  | token i, h => by
    have hi : i.readsStack = false := by simpa [isQuiet, tokens] using h
    simp [weight, hi]
  | tree kind children idiom, h => by
    have hs := isQuiet_tree.1 h
    rw [weight, weight, weightSum_of_isQuiet hs, weightOfLast_of_isQuiet hs]

theorem weightSum_of_isQuiet : ∀ {nodes : List Node}, (∀ n ∈ nodes, n.isQuiet = true) →
    weightSum reading nodes = weightSum 0 nodes
  | [], _ => rfl
  | node :: rest, h => by
    rw [weightSum, weightSum, weight_of_isQuiet (h node (by simp)),
      weightSum_of_isQuiet fun n hn => h n (List.mem_cons_of_mem _ hn)]

theorem weightOfLast_of_isQuiet : ∀ {nodes : List Node}, (∀ n ∈ nodes, n.isQuiet = true) →
    weightOfLast reading nodes = weightOfLast 0 nodes
  | [], _ => rfl
  | [node], h => weight_of_isQuiet (h node (by simp))
  | _ :: next :: rest, h => @weightOfLast_of_isQuiet (next :: rest) fun n hn =>
      h n (List.mem_cons_of_mem _ hn)

end

end Node

/-- The weight that a value on the stack pays for. -/
def StackValue.load : StackValue → Nat
  | node n => n.weight 0
  | _ => 0

def Page.load (p : Page) : Nat := (p.values.map StackValue.load).sum

/-- Whether an issue says that rendering asked for what is not there. -/
def Issue.isGap : Issue → Bool
  | noRendering _ | missingChild _ _ => true
  | _ => false

section

variable (shaped : Prop) (most : Nat)

/-- What holds of all nodes that rendering meets: their loops start quiet, they are not too heavy,
and they fit if `shaped`. -/
structure Node.Fair (node : Node) : Prop where
  loops : node.LoopsStartQuiet
  light : node.weight 0 ≤ most
  fits : shaped → node.Shaped

/-- A node that may be rendered. -/
structure Node.Ready (node : Node) : Prop extends node.Fair shaped most where
  rendered : shaped → node.role.isRendered = true

/-- A node on the stack reads nothing of the stack. -/
structure Node.Stored (node : Node) : Prop extends node.Ready shaped most where
  isQuiet : node.isQuiet = true

/-- What holds of the page all the time. -/
structure Page.Fair (p : Page) : Prop where
  stored : ∀ n, .node n ∈ p.values → n.Stored shaped most
  noGap : shaped → ∀ i ∈ p.issues, i.isGap = false

end

namespace Rendering

/-- The rendering comes to an end within some levels, if the stack's load and the cost do not exceed
them. The load grows by no more than the cost. -/
def Within {α : Type} (shaped : Prop) (most levels cost : Nat) (x : Rendering α) : Prop :=
  ∀ p : Page, p.Fair shaped most → p.load + cost ≤ levels →
    ∃ a p', x p = some (a, p') ∧ p'.Fair shaped most ∧ p'.load ≤ p.load + cost

variable {α β : Type} {shaped : Prop} {most levels cost cost' : Nat}
  {render : Node → Rendering Unit}

theorem exists_of_run_bind {x : Rendering α} {f : α → Rendering β} {p p'' : Page} {b : β}
    (h : (x >>= f) p = some (b, p'')) : ∃ a p', x p = some (a, p') ∧ f a p' = some (b, p'') := by
  obtain ⟨⟨a, p'⟩, ha, hb⟩ := Option.bind_eq_some_iff.1 (show (x p).bind _ = _ from h)
  exact ⟨a, p', ha, hb⟩

namespace Within

theorem mono {x : Rendering α} (hx : Within shaped most levels cost x) (h : cost ≤ cost') :
    Within shaped most levels cost' x := by
  intro p hp hload
  obtain ⟨a, p', hrun, hp', hload'⟩ := hx p hp (by omega)
  exact ⟨a, p', hrun, hp', by omega⟩

theorem bind_of_run {x : Rendering α} {f : α → Rendering β} (hx : Within shaped most levels cost x)
    (hf : ∀ a p p', x p = some (a, p') → Within shaped most levels cost' (f a)) :
    Within shaped most levels (cost + cost') (x >>= f) := by
  intro p hp hload
  obtain ⟨a, p', hrun, hp', hload'⟩ := hx p hp (by omega)
  obtain ⟨b, p'', hrun', hp'', hload''⟩ := hf a p p' hrun p' hp' (by omega)
  exact ⟨b, p'', (run_bind hrun).trans hrun', hp'', by omega⟩

theorem bind {x : Rendering α} {f : α → Rendering β} (hx : Within shaped most levels cost x)
    (hf : ∀ a, Within shaped most levels cost' (f a)) :
    Within shaped most levels (cost + cost') (x >>= f) := hx.bind_of_run fun a _ _ _ => hf a

/-- A step that costs nothing. -/
theorem free {x : Rendering α} {f : α → Rendering β} (hx : Within shaped most levels 0 x)
    (hf : ∀ a, Within shaped most levels cost (f a)) :
    Within shaped most levels cost (x >>= f) := by
  simpa using hx.bind hf

/-- What follows costs nothing. -/
theorem bind_free {x : Rendering α} {f : α → Rendering β} (hx : Within shaped most levels cost x)
    (hf : ∀ a, Within shaped most levels 0 (f a)) : Within shaped most levels cost (x >>= f) :=
  hx.bind hf

theorem pure (a : α) : Within shaped most levels cost (pure a) :=
  fun p hp _ => ⟨a, p, rfl, hp, by omega⟩

theorem get : Within shaped most levels 0 get := fun p hp _ => ⟨p, p, rfl, hp, by omega⟩

/-- What depends on the page may use what holds of every page. -/
theorem get_bind {f : Page → Rendering β}
    (hf : ∀ p : Page, p.Fair shaped most → Within shaped most levels cost (f p)) :
    Within shaped most levels cost (MonadState.get >>= f) := fun p hp => hf p hp p hp

theorem load_of_sublist {p p' : Page} (h : p'.values.Sublist p.values) : p'.load ≤ p.load :=
  (h.map _).sum_le_sum fun _ _ => Nat.zero_le _

/-- A change of the page that puts nothing on the stack. -/
theorem modify {f : Page → Page} (hvalues : ∀ p, (f p).values.Sublist p.values)
    (hissues : ∀ p, (f p).issues = p.issues) : Within shaped most levels cost (modify f) := by
  intro p hp _
  refine ⟨(), f p, rfl, ⟨fun n hn => hp.stored n ((hvalues p).subset hn), ?_⟩, ?_⟩
  · rw [hissues]
    exact hp.noGap
  · have hload := load_of_sublist (hvalues p)
    omega

theorem issue {i : Issue} (h : shaped → i.isGap = false) :
    Within shaped most levels cost (issue i) := by
  intro p hp _
  refine ⟨(), _, rfl, ⟨hp.stored, fun hs j hj => ?_⟩, Nat.le_add_right _ _⟩
  rcases List.mem_append.1 hj with hj | hj
  · exact hp.noGap hs j hj
  · rw [List.mem_singleton.1 hj]
    exact h hs

theorem push {v : StackValue} (h : ∀ n, v = .node n → n.Stored shaped most) :
    Within shaped most levels v.load (push v) := by
  intro p hp _
  refine ⟨(), _, rfl, ⟨fun n hn => ?_, hp.noGap⟩, ?_⟩
  · rcases List.mem_cons.1 hn with hn | hn
    · exact h n hn.symm
    · exact hp.stored n hn
  · change (v.load :: p.values.map StackValue.load).sum ≤ _
    rw [List.sum_cons, Page.load]
    omega

theorem capture {x : Rendering Unit} (hx : Within shaped most levels cost x) :
    Within shaped most levels cost (capture x) := by
  intro p hp hload
  obtain ⟨a, p', hrun, hp', hload'⟩ :=
    hx { p with text := "", startColumn := p.indent.utf8ByteSize } ⟨hp.stored, hp.noGap⟩ hload
  refine ⟨p'.text, { p' with text := p.text, startColumn := p.startColumn }, ?_,
    ⟨hp'.stored, hp'.noGap⟩, hload'⟩
  change (x { p with text := "", startColumn := p.indent.utf8ByteSize }).bind _ = _
  rw [hrun]
  rfl

theorem write (s : String) : Within shaped most levels cost (write s) :=
  modify (fun _ => List.Sublist.refl _) fun _ => rfl

theorem newline : Within shaped most levels cost newline :=
  modify (fun _ => List.Sublist.refl _) fun _ => rfl

theorem indentTo (indent : Page → String) : Within shaped most levels cost (indentTo indent) :=
  modify (fun _ => List.Sublist.refl _) fun _ => rfl

theorem withUnquoted {x : Rendering α} {unquoted : Bool} (hx : Within shaped most levels cost x) :
    Within shaped most levels cost (withUnquoted unquoted x) := by
  refine get.free fun before => free (modify ?_ ?_) fun _ => bind_free hx fun a =>
    free (modify ?_ ?_) fun _ => pure a
  all_goals first | exact fun _ => List.Sublist.refl _ | exact fun _ => rfl

theorem dedent : Within shaped most levels cost dedent := by
  refine get.free fun p => ?_
  split
  · exact modify (fun _ => List.Sublist.refl _) fun _ => rfl
  · exact issue fun _ => rfl

theorem openForm : Within shaped most levels cost openForm := by
  refine get.free fun p => ?_
  split
  · exact newline.free fun _ => write "("
  · exact (pure ()).free fun _ => write "("

theorem closeForm : Within shaped most levels cost closeForm := (write ")").free fun _ => dedent

theorem missing {node : Node} {n : Option Nat} (h : ¬ shaped) :
    Within shaped most levels cost (missing node n) :=
  (issue fun hs => (h hs).elim).free fun _ => write _

end Within

/-- Every node that may be rendered is rendered within its weight. -/
def Renders (shaped : Prop) (most levels : Nat) (render : Node → Rendering Unit) : Prop :=
  ∀ n : Node, n.Ready shaped most → Within shaped most levels (n.weight most) (render n)

end Rendering

namespace Node

variable {shaped : Prop} {most : Nat} {node c : Node}

namespace Fair

theorem of_mem (h : node.Fair shaped most) (hc : c ∈ node.children) : c.Fair shaped most := by
  cases node with
  | token i => simp [Node.children] at hc
  | tree kind children idiom =>
    have hweight : c.weight 0 < (tree kind children idiom).weight 0 :=
      (weight_le_weightSum hc).trans_lt weightSum_lt
    exact ⟨(loopsStartQuiet_tree.1 h.loops).2 c hc, hweight.le.trans h.light,
      fun hs => (shaped_tree.1 (h.fits hs)).2 c hc⟩

theorem child? (h : node.Fair shaped most) {n : Nat} (hc : node.child? n = some c) :
    c.Fair shaped most := h.of_mem (List.mem_of_getElem? hc)

theorem ready (h : node.Fair shaped most)
    (hfit : shaped → (node.children.map role).all Role.isRendered = true) :
    ∀ c ∈ node.children, c.Ready shaped most :=
  fun c hc => ⟨h.of_mem hc, fun hs => all_roles.1 (hfit hs) c hc⟩

theorem ready_child (h : node.Fair shaped most) {n : Nat}
    (hfit : shaped → (node.children.map role)[n]?.any Role.isRendered = true)
    (hc : node.child? n = some c) : c.Ready shaped most := by
  refine ⟨h.child? hc, fun hs => ?_⟩
  obtain ⟨c', hc', hrendered⟩ := any_role.1 (hfit hs)
  exact Option.some.inj (hc'.symm.trans hc) ▸ hrendered

theorem lines (h : node.Fair shaped most) : ∀ c ∈ node.lines, c.Fair shaped most := by
  intro c hc
  unfold Node.lines at hc
  split at hc
  · exact h.of_mem hc
  · cases hlist : node.child? 0 with
    | none => simp [hlist] at hc
    | some list => exact (h.child? hlist).of_mem (by simpa [hlist] using hc)

/-- The statements of a list may be rendered. -/
theorem ready_items (h : node.Fair shaped most) (hrole : shaped → node.role = .known .exprs) :
    ∀ c ∈ node.children, c.Ready shaped most := by
  refine h.ready fun hs => all_roles.2 fun c hc => ?_
  rw [of_decide_eq_true (all_roles.1 ((h.fits hs).fits_of_role (hrole hs)) c hc)]
  rfl

/-- The statements of a body may be rendered. -/
theorem ready_lines (h : node.Fair shaped most) (hrole : shaped → node.role = .known .body) :
    ∀ c ∈ node.lines, c.Ready shaped most := by
  refine fun c hc => ⟨h.lines c hc, fun hs => ?_⟩
  obtain ⟨children, idiom, rfl⟩ := eq_tree_of_role (hrole hs)
  have hroles : children.map role = [.known .exprs] :=
    of_decide_eq_true (shaped_tree.1 (h.fits hs)).1
  obtain ⟨list, rfl, hlist⟩ := List.map_eq_singleton_iff.1 hroles
  exact ((h.of_mem (List.mem_singleton_self list)).ready_items (fun _ => hlist) c hc).rendered hs

end Fair

/-- A child that the shape asks for is there. -/
theorem not_shaped {p : Role → Bool} {n : Nat}
    (hfit : shaped → (node.children.map role)[n]?.any p = true) (hc : node.child? n = none) :
    ¬ shaped := by
  intro hs
  obtain ⟨c, hc', -⟩ := any_role.1 (hfit hs)
  cases hc'.symm.trans hc

theorem weightAt_child {reading n : Nat} (hc : node.child? n = some c) :
    weightAt reading node.children n = c.weight reading := by
  rw [weightAt, show node.children[n]? = some c from hc]
  rfl

theorem weightSum_children_le {reading : Nat} :
    weightSum reading node.children ≤ node.weight reading := by
  cases node with
  | token i => exact Nat.zero_le _
  | tree kind children idiom => exact weightSum_lt.le

theorem weightSum_lines_le {reading : Nat} :
    weightSum reading node.lines ≤ node.weight reading := by
  unfold Node.lines
  split
  · exact weightSum_children_le
  · cases hlist : node.child? 0 with
    | none => exact Nat.zero_le _
    | some list =>
      exact weightSum_children_le.trans
        ((weight_le_weightSum (List.mem_of_getElem? hlist)).trans weightSum_children_le)

end Node

namespace Rendering

open Node

variable {shaped : Prop} {most levels : Nat} {render : Node → Rendering Unit} {node : Node}

section values

variable (hrender : Renders shaped most levels render)

include hrender

theorem within_valueText {v : StackValue} (take : Bool)
    (hv : ∀ n, v = .node n → n.Stored shaped most) :
    Within shaped most levels v.load (valueText render take v) := by
  cases v with
  | text s => exact .pure s
  | operand s => exact .pure s
  | node n =>
    have hn := hv n rfl
    have hrun := (hrender n hn.toReady).capture
    rwa [weight_of_isQuiet hn.isQuiet] at hrun
  | slot id =>
    have hread : Within shaped most levels 0 (readSlot id) := .free .get fun p => .pure _
    have htake : Within shaped most levels 0 (takeSlot id) := hread.free fun text =>
      .free (.modify (fun _ => List.Sublist.refl _) fun _ => rfl) fun _ => .pure _
    cases take
    case' true => refine htake.free fun text => ?_
    case' false => refine hread.free fun text => ?_
    all_goals
      cases text with
      | some text => exact .pure text
      | none => exact .free (.issue fun _ => rfl) fun _ => .pure _

theorem within_pop : Within shaped most levels 0 (pop render) := by
  intro p hp hload
  have hget : (get : Rendering Page) p = some (p, p) := rfl
  rw [pop, run_bind hget]
  cases hvalues : p.values with
  | nil => exact Within.free (.issue fun _ => rfl) (fun _ => .pure _) p hp hload
  | cons v rest =>
    have hsplit : p.load = v.load + (rest.map StackValue.load).sum := by
      rw [Page.load, hvalues, List.map_cons, List.sum_cons]
    have hrest : Page.Fair shaped most { p with values := rest } :=
      ⟨fun n hn => hp.stored n (by simp [hvalues, hn]), hp.noGap⟩
    have hstored : ∀ n, v = .node n → n.Stored shaped most := fun n hn =>
      hp.stored n (by simp [hvalues, hn])
    obtain ⟨a, p', hrun, hp', hload'⟩ := within_valueText hrender true hstored _ hrest
      (by simp only [Page.load] at hsplit hload ⊢; omega)
    exact ⟨a, p', hrun, hp', by simp only [Page.load] at hsplit hload' ⊢; omega⟩

/-- To read a value costs at most what a value on the stack weighs. -/
theorem within_read {v : StackValue} {p : Page} (hp : p.Fair shaped most) (hv : v ∈ p.values) :
    Within shaped most levels most (valueText render false v) := by
  have hstored : ∀ n, v = .node n → n.Stored shaped most := fun n hn => hp.stored n (hn ▸ hv)
  refine (within_valueText hrender false hstored).mono ?_
  cases v with
  | node n => exact (hstored n rfl).light
  | _ => exact Nat.zero_le _

theorem within_peek : Within shaped most levels most (peek render) := by
  refine .get_bind fun p hp => ?_
  split
  next v rest hvalues => exact within_read hrender hp (by simp [hvalues])
  next => exact .free (.issue fun _ => rfl) fun _ => .pure _

theorem within_stackRef {depth offset : Nat} :
    Within shaped most levels most (stackRef render depth offset) := by
  refine .get_bind fun p hp => ?_
  split
  next v hv => exact within_read hrender hp (List.mem_of_getElem? hv)
  next => exact .free (.issue fun _ => rfl) fun _ => .pure _

theorem within_instructionText {i : Instruction} {cost : Nat}
    (hcost : i.readsStack = true → most ≤ cost) :
    Within shaped most levels cost (instructionText render i) := by
  unfold instructionText
  split
  case h_2 => exact .free .get fun _ => .pure _
  case h_6 hkind =>
    refine (within_peek hrender).mono (hcost ?_)
    simp [Instruction.readsStack, Instruction.isOp, hkind]
  case h_7 hkind =>
    refine (within_stackRef hrender).mono (hcost ?_)
    simp [Instruction.readsStack, Instruction.isOp, hkind]
  all_goals exact .pure _

theorem within_instruction {i : Instruction} {cost : Nat}
    (hcost : i.readsStack = true → most ≤ cost) :
    Within shaped most levels cost (instruction render i) :=
  .bind_free (within_instructionText hrender hcost) fun s => .write s

end values

end Rendering

end ElispLift

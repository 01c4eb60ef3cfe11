import ElispLift.Proofs.Idioms.NormalForm

/-!
# Values of expressions

An expression that only applies operations to constants and variables has a value as soon as it is
known what the operations stand for. Some idioms put other operations in place of those that a tree
has; they keep the value, whatever the operations stand for, if the new ones stand for what they
abbreviate.
-/

namespace ElispLift

/-- The operation on two values that a family repeats over any number of them. -/
def Family.operation? : Family → Option Opcode
  | max => some .max
  | min => some .min
  | nconc => some .nconc
  | _ => none

/-- What constants and operations stand for. -/
structure Interpretation (V : Type) where
  constant : Option Operand → V
  /-- An operation on as many values as it takes. -/
  apply : Opcode → List V → V
  /-- An operation on any number of values. -/
  gather : Family → List V → V
  neqlsign : ∀ a b, apply .neqlsign [a, b] = apply .not [apply .eqlsign [a, b]]
  caar : ∀ x, apply .caar [x] = apply .car [apply .car [x]]
  cadr : ∀ x, apply .cadr [x] = apply .car [apply .cdr [x]]
  cdar : ∀ x, apply .cdar [x] = apply .cdr [apply .car [x]]
  cddr : ∀ x, apply .cddr [x] = apply .cdr [apply .cdr [x]]
  assoc : ∀ (family : Family) op, family.operation? = some op → ∀ a b c,
    apply op [apply op [a, b], c] = apply op [a, apply op [b, c]]
  gather_cons : ∀ (family : Family) op, family.operation? = some op → ∀ a rest,
    gather family (a :: rest) = rest.foldl (fun x y => apply op [x, y]) a

namespace Interpretation

variable {V : Type} (I : Interpretation V)

/-- The value of an application to any number of values. There is no largest or smallest of no
values, and what a call applies is not known. -/
def gather? (family : Family) (values : List V) : Option V :=
  if family = .call || (values.isEmpty && family.operation?.isSome) then none
  else some (I.gather family values)

variable {family : Family} {op : Opcode} {I}

theorem call_ne (h : family.operation? = some op) : family ≠ .call := by
  rintro rfl
  cases h

theorem gather?_cons (h : family.operation? = some op) (a : V) (rest : List V) :
    I.gather? family (a :: rest) = some (I.gather family (a :: rest)) := by
  simp [gather?, call_ne h]

theorem gather?_nil (h : family.operation? = some op) : I.gather? family [] = none := by
  simp [gather?, h]

theorem gather_singleton (h : family.operation? = some op) (a : V) : I.gather family [a] = a :=
  I.gather_cons family op h a []

/-- Two groups of values may be gathered before they are put together. -/
theorem gather_append (h : family.operation? = some op) {values rest : List V} {v w : V}
    (hv : I.gather? family values = some v) (hw : I.gather? family rest = some w) :
    I.gather? family (values ++ rest) = some (I.apply op [v, w]) := by
  cases values with
  | nil => cases (gather?_nil h).symm.trans hv
  | cons a values =>
    cases rest with
    | nil => cases (gather?_nil h).symm.trans hw
    | cons b rest =>
      obtain rfl := Option.some.inj ((gather?_cons h a values).symm.trans hv)
      obtain rfl := Option.some.inj ((gather?_cons h b rest).symm.trans hw)
      have : Std.Associative fun x y => I.apply op [x, y] := ⟨I.assoc family op h⟩
      rw [List.cons_append, gather?_cons h]
      simp only [I.gather_cons family op h, List.foldl_append, List.foldl_cons]
      exact congrArg some List.foldl_assoc

end Interpretation

namespace Node

/-- The operation of a node of a kind that holds nothing else. -/
def opcode? (kind : Nonterminal) : Node → Option Opcode
  | tree k [token i] _ =>
    match i.kind with
    | .fixed op => if k = kind then some op else none
    | .counted _ _ => none
  | _ => none

/-- The name of the variable that an instruction refers to. -/
def variableName (i : Instruction) : String := (i.operand.map Operand.toText).getD ""

section

variable {V : Type} (I : Interpretation V) (env : String → V)

mutual

/-- The value of an expression if variables have the values of `env`. Instructions are only
expressions inside a wrapper. -/
@[simp]
def value? : Node → Option V
  | tree .expr [token i] _ => if i.isOp .varref then some (env (variableName i)) else none
  | tree .expr [only] _ => value? only
  | tree .exprStacked [only] _ => value? only
  | tree .nameExpr [token i] _ => if i.isOp .constant then some (I.constant i.operand) else none
  | tree .nullaryExpr [op] _ => do return I.apply (← opcode? .nullaryOp op) []
  | tree .unaryExpr [a, op] _ => do return I.apply (← opcode? .unaryOp op) [← value? a]
  | tree .binaryExpr [a, b, op] _ => do
    return I.apply (← opcode? .binaryOp op) [← value? a, ← value? b]
  | tree .ternaryExpr [a, b, c, op] _ => do
    return I.apply (← opcode? .ternaryOp op) [← value? a, ← value? b, ← value? c]
  | tree (.counted family) children _ => do I.gather? family (← values? children)
  | _ => none

/-- The values of expressions. Instructions among them are counts. -/
@[simp]
def values? : List Node → Option (List V)
  | [] => some []
  | token _ :: rest => values? rest
  | node :: rest => do return (← value? node) :: (← values? rest)

end

variable {I env} {node only a b c op : Node} {kind : Nonterminal} {idiom : Option Idiom}
  {o : Opcode} {v x y z : V} {vs : List V} {nodes rest : List Node}

/-! ### Operators -/

theorem opcode?_eq_some_iff : node.opcode? kind = some o ↔
    ∃ i idiom, node = tree kind [token i] idiom ∧ i.kind = .fixed o := by
  constructor
  · intro h
    unfold opcode? at h
    split at h
    case h_2 => cases h
    case h_1 k i idiom =>
      split at h
      case h_2 => cases h
      case h_1 op hop =>
        split at h
        case isFalse => cases h
        case isTrue hk =>
          cases h
          exact ⟨i, idiom, hk ▸ rfl, hop⟩
  · rintro ⟨i, idiom, rfl, hi⟩
    simp [opcode?, hi]

theorem opcode?_operator (kind : Nonterminal) (o : Opcode) (offset : Nat) :
    (operator kind o offset).opcode? kind = some o :=
  opcode?_eq_some_iff.2 ⟨_, _, rfl, rfl⟩

theorem operatorIs_iff (h : op.opcode? kind = some o) {o' : Opcode} :
    op.operatorIs o' = true ↔ o = o' := by
  obtain ⟨i, idiom, rfl, hi⟩ := opcode?_eq_some_iff.1 h
  simp [operatorIs, operator?, child?, Node.children, token?, Instruction.isOp, hi]

/-! ### Applications -/

theorem value?_nullary (hop : op.opcode? .nullaryOp = some o) :
    value? I env (tree .nullaryExpr [op] idiom) = some (I.apply o []) := by
  simp [value?, hop]

theorem value?_unary (hop : op.opcode? .unaryOp = some o) (ha : value? I env a = some x) :
    value? I env (tree .unaryExpr [a, op] idiom) = some (I.apply o [x]) := by
  simp [value?, hop, ha]

theorem value?_binary (hop : op.opcode? .binaryOp = some o) (ha : value? I env a = some x)
    (hb : value? I env b = some y) :
    value? I env (tree .binaryExpr [a, b, op] idiom) = some (I.apply o [x, y]) := by
  simp [value?, hop, ha, hb]

theorem value?_ternary (hop : op.opcode? .ternaryOp = some o) (ha : value? I env a = some x)
    (hb : value? I env b = some y) (hc : value? I env c = some z) :
    value? I env (tree .ternaryExpr [a, b, c, op] idiom) = some (I.apply o [x, y, z]) := by
  simp [value?, hop, ha, hb, hc]

/-! ### Wrappers and lists -/

theorem value?_wrapper (h : value? I env only = some v) :
    value? I env (tree .expr [only] idiom) = some v := by
  cases only with
  | token i => cases h
  | tree kind children idiom' => exact h

/-- An expression has the value of what it wraps, if that is a tree. -/
theorem value?_of_unwrap {children : List Node} (h : node.unwrap = tree kind children idiom) :
    value? I env node = value? I env (tree kind children idiom) := by
  fun_induction Node.unwrap node with
  | case1 only _ ih =>
    cases only with
    | token i => cases h
    | tree _ _ _ => exact ih h
  | case2 only _ ih => exact ih h
  | case3 node => rw [h]

theorem values?_cons (h : value? I env node = some v) :
    values? I env (node :: rest) = (values? I env rest).map (v :: ·) := by
  cases node with
  | token i => cases h
  | tree kind children idiom =>
    rw [values?, h]
    · cases values? I env rest <;> rfl
    · nofun

theorem values?_append {ws : List V} (hv : values? I env nodes = some vs)
    (hw : values? I env rest = some ws) : values? I env (nodes ++ rest) = some (vs ++ ws) := by
  induction nodes generalizing vs with
  | nil =>
    cases hv
    exact hw
  | cons node nodes ih =>
    cases node with
    | token i => exact ih hv
    | tree kind children idiom =>
      simp only [values?, Option.bind_eq_bind, Option.bind_eq_some_iff] at hv
      obtain ⟨v, hnode, vs', hnodes, hvs⟩ := hv
      cases hvs
      rw [List.cons_append, values?_cons hnode, ih hnodes]
      rfl

end

end Node

namespace Idiom

open Node

variable {V : Type} {I : Interpretation V} {env : String → V} {children : List Node}
  {node : Node} {idiom : Option Idiom} {v : V}

/-! ### Idioms of operations -/

theorem value?_notEqual {operand op a b inner : Node} {sign : Instruction}
    {idiom' : Option Idiom}
    (hv : value? I env (.tree .unaryExpr [operand, op] idiom) = some v)
    (hop : op.operatorIs .not = true) (hu : operand.unwrap = .tree .binaryExpr [a, b, inner] idiom')
    (hsign : inner.operator? = some sign) (hequal : sign.isOp .eqlsign = true) :
    value? I env
      (made .notEqual .binaryExpr [a, b, operator .binaryOp .neqlsign sign.offset]) = some v := by
  simp only [value?, value?_of_unwrap hu, Option.bind_eq_bind, Option.bind_eq_some_iff] at hv
  obtain ⟨o, ho, w, ⟨o', ho', x, hx, y, hy, hw⟩, hv⟩ := hv
  cases hw
  cases hv
  obtain rfl := (operatorIs_iff ho).1 hop
  have hinner : inner.operatorIs .eqlsign = true := by simp [operatorIs, hsign, hequal]
  obtain rfl := (operatorIs_iff ho').1 hinner
  exact (value?_binary (opcode?_operator _ _ _) hx hy).trans (congrArg some (I.neqlsign x y))

/-- The operation that takes the head or the rest of a list. -/
def accessor (head : Bool) : Opcode := if head then .car else .cdr

theorem takesHead?_eq {op : Node} {kind : Nonterminal} {o : Opcode} {head : Bool}
    (ho : op.opcode? kind = some o) (h : takesHead? op = some head) : o = accessor head := by
  simp only [takesHead?, operatorIs_iff ho] at h
  split at h
  · cases h
    assumption
  · split at h
    · cases h
      assumption
    · cases h

theorem apply_combined (outer inner : Bool) (x : V) : I.apply (combined outer inner) [x] =
    I.apply (accessor outer) [I.apply (accessor inner) [x]] := by
  cases outer <;> cases inner
  · exact I.cddr x
  · exact I.cdar x
  · exact I.cadr x
  · exact I.caar x

theorem value?_cxr {operand op x innerOp : Node} {outer inner : Bool} {idiom' : Option Idiom}
    {offset : Nat} (hv : value? I env (.tree .unaryExpr [operand, op] idiom) = some v)
    (houter : takesHead? op = some outer)
    (hu : operand.unwrap = .tree .unaryExpr [x, innerOp] idiom')
    (hinner : takesHead? innerOp = some inner) :
    value? I env (made .cxr .unaryExpr [x, operator .unaryOp (combined outer inner) offset]) =
      some v := by
  simp only [value?, value?_of_unwrap hu, Option.bind_eq_bind, Option.bind_eq_some_iff] at hv
  obtain ⟨o, ho, w, ⟨o', ho', y, hy, hw⟩, hv⟩ := hv
  cases hw
  cases hv
  rw [takesHead?_eq ho houter, takesHead?_eq ho' hinner, ← apply_combined]
  exact value?_unary (opcode?_operator _ _ _) hy

theorem mem_associative {op : Opcode} {family : Family} (h : (op, family) ∈ associative) :
    family.operation? = some op := by
  simp only [associative, List.mem_cons, Prod.mk.injEq, List.not_mem_nil, or_false] at h
  rcases h with ⟨rfl, rfl⟩ | ⟨rfl, rfl⟩ | ⟨rfl, rfl⟩ <;> rfl

theorem gather?_single {op : Opcode} {family : Family} (hop : family.operation? = some op)
    (h : value? I env node = some v) :
    ∃ vs, values? I env [node] = some vs ∧ I.gather? family vs = some v := by
  refine ⟨[v], values?_cons h, ?_⟩
  rw [Interpretation.gather?_cons hop, Interpretation.gather_singleton hop]

/-- The arguments of nested applications have values, and gathered they are the value of the
whole. -/
theorem gather?_arguments {op : Opcode} {family : Family} (hop : family.operation? = some op)
    {whole : Node} (hwhole : value? I env whole = some v) (hnode : value? I env node = some v) :
    ∃ vs, values? I env (arguments op family whole node) = some vs ∧
      I.gather? family vs = some v := by
  fun_induction arguments op family whole node generalizing v with
  | case1 whole only idiom ih =>
    cases only with
    | token i => exact gather?_single hop hwhole
    | tree kind children idiom' => exact ih hwhole hnode
  | case2 whole only idiom ih => exact ih hwhole hnode
  | case3 whole a b o rest idiom ho iha ihb =>
    cases rest with
    | cons c rest => cases hnode
    | nil =>
      simp only [value?, Option.bind_eq_bind, Option.bind_eq_some_iff] at hnode
      obtain ⟨op', hop', x, hx, y, hy, hv⟩ := hnode
      cases hv
      obtain rfl := (operatorIs_iff hop').1 ho
      obtain ⟨vs, hvs, hgather⟩ := iha hx hx
      obtain ⟨ws, hws, hgather'⟩ := ihb hy hy
      exact ⟨vs ++ ws, values?_append hvs hws,
        Interpretation.gather_append hop hgather hgather'⟩
  | case4 => exact gather?_single hop hwhole
  | case5 whole children idiom => exact Option.bind_eq_some_iff.1 hnode
  | case6 => exact gather?_single hop hwhole
  | case7 => exact gather?_single hop hwhole

theorem value?_flatten {a b op : Node} {rest : List Node} {opcode : Opcode} {family : Family}
    (hv : value? I env (.tree .binaryExpr (a :: b :: op :: rest) idiom) = some v)
    (hmem : (opcode, family) ∈ associative) (his : op.operatorIs opcode = true) :
    value? I env (made .flatten (.counted family)
      (arguments opcode family a a ++ arguments opcode family b b)) = some v := by
  have hop : family.operation? = some opcode := mem_associative hmem
  cases rest with
  | cons c rest => cases hv
  | nil =>
    simp only [value?, Option.bind_eq_bind, Option.bind_eq_some_iff] at hv
    obtain ⟨o, ho, x, hx, y, hy, hv⟩ := hv
    cases hv
    obtain rfl := (operatorIs_iff ho).1 his
    obtain ⟨vs, hvs, hgather⟩ := gather?_arguments hop hx hx
    obtain ⟨ws, hws, hgather'⟩ := gather?_arguments hop hy hy
    rw [made, value?, values?_append hvs hws]
    exact Interpretation.gather_append hop hgather hgather'

/-- A form that takes the place of an expression has the value of the expression. -/
theorem value?_of_recognize? {kind : Nonterminal}
    (hv : value? I env (.tree kind children idiom) = some v)
    (h : recognize? kind children = some node) : value? I env node = some v := by
  cases makes_of_recognize? h with
  | notEqual hop hu hsign hequal => exact value?_notEqual hv hop hu hsign hequal
  | cxr houter hu hinner => exact value?_cxr hv houter hu hinner
  | flatten hmem hop => exact value?_flatten hv hmem hop
  | defvar | kbd =>
    -- a call has no value
    obtain ⟨vs, -, hv⟩ := Option.bind_eq_some_iff.1 hv
    cases hv
  | andStatement | whenToIf | withCurrentBuffer | withTempBuffer | dolist => simp [value?] at hv

end Idiom

namespace Node

variable {V : Type} {I : Interpretation V} {env : String → V} {node op : Node}
  {children nodes : List Node} {kind : Nonterminal} {idiom : Option Idiom} {o : Opcode} {v : V}

/-! ### The whole tree -/

theorem idiomatic_of_opcode? (h : op.opcode? kind = some o)
    (hkind : ∀ cs, Idiom.recognize? kind cs = none) : op.idiomatic = op := by
  obtain ⟨i, idiom, rfl, -⟩ := opcode?_eq_some_iff.1 h
  rw [idiomatic, idiomaticAll_eq_map, hkind]
  rfl

/-- Recognising idioms in an expression keeps its value. -/
def HoldsValue (I : Interpretation V) (env : String → V) (node : Node) : Prop :=
  ∀ v, value? I env node = some v → value? I env node.idiomatic = some v

theorem values?_idiomatic (hs : ∀ c ∈ nodes, c.HoldsValue I env) {vs : List V}
    (h : values? I env nodes = some vs) : values? I env (nodes.map idiomatic) = some vs := by
  induction nodes generalizing vs with
  | nil => exact h
  | cons node nodes ih =>
    have hnodes : ∀ ws, values? I env nodes = some ws →
        values? I env (nodes.map idiomatic) = some ws :=
      fun _ => ih fun c hc => hs c (List.mem_cons_of_mem _ hc)
    cases node with
    | token i => exact hnodes vs h
    | tree kind children idiom =>
      simp only [values?, Option.bind_eq_bind, Option.bind_eq_some_iff] at h
      obtain ⟨v, hnode, ws, hws, hvs⟩ := h
      cases hvs
      rw [List.map_cons, values?_cons (hs _ (by simp) v hnode), hnodes ws hws]
      rfl

/-- Putting idioms in place of its parts keeps the value of an expression. -/
theorem value?_map_idiomatic (hs : ∀ c ∈ children, c.HoldsValue I env)
    (h : value? I env (tree kind children idiom) = some v) :
    value? I env (tree kind (children.map idiomatic) idiom) = some v := by
  unfold value? at h
  split at h
  case h_1 i idiom' heq =>
    cases heq
    exact h
  case h_2 only idiom' htoken heq =>
    cases heq
    exact value?_wrapper (hs only (by simp) v h)
  case h_3 only idiom' heq =>
    cases heq
    exact hs only (by simp) v h
  case h_4 i idiom' heq =>
    cases heq
    exact h
  case h_5 op idiom' heq =>
    cases heq
    obtain ⟨o, ho, hv⟩ := Option.bind_eq_some_iff.1 h
    cases hv
    rw [List.map_singleton, idiomatic_of_opcode? ho fun _ => rfl]
    exact value?_nullary ho
  case h_6 a op idiom' heq =>
    cases heq
    simp only [Option.bind_eq_bind, Option.bind_eq_some_iff] at h
    obtain ⟨o, ho, x, hx, hv⟩ := h
    cases hv
    rw [List.map_cons, List.map_singleton, idiomatic_of_opcode? ho fun _ => rfl]
    exact value?_unary ho (hs a (by simp) x hx)
  case h_7 a b op idiom' heq =>
    cases heq
    simp only [Option.bind_eq_bind, Option.bind_eq_some_iff] at h
    obtain ⟨o, ho, x, hx, y, hy, hv⟩ := h
    cases hv
    rw [List.map_cons, List.map_cons, List.map_singleton, idiomatic_of_opcode? ho fun _ => rfl]
    exact value?_binary ho (hs a (by simp) x hx) (hs b (by simp) y hy)
  case h_8 a b c op idiom' heq =>
    cases heq
    simp only [Option.bind_eq_bind, Option.bind_eq_some_iff] at h
    obtain ⟨o, ho, x, hx, y, hy, z, hz, hv⟩ := h
    cases hv
    rw [List.map_cons, List.map_cons, List.map_cons, List.map_singleton,
      idiomatic_of_opcode? ho fun _ => rfl]
    exact value?_ternary ho (hs a (by simp) x hx) (hs b (by simp) y hy) (hs c (by simp) z hz)
  case h_9 family children' idiom' heq =>
    cases heq
    obtain ⟨vs, hvs, hv⟩ := Option.bind_eq_some_iff.1 h
    rw [value?, values?_idiomatic hs hvs]
    exact hv
  case h_10 => cases h

mutual

theorem holdsValue : ∀ node : Node, node.HoldsValue I env
  | token _ => fun _ h => h
  | tree kind children idiom => fun v h => by
    have hparts := value?_map_idiomatic (holdsValueAll children) h
    rw [idiomatic, idiomaticAll_eq_map]
    cases hfound : Idiom.recognize? kind (children.map idiomatic) with
    | none => exact hparts
    | some found => exact Idiom.value?_of_recognize? hparts hfound

theorem holdsValueAll : ∀ nodes : List Node, ∀ n ∈ nodes, n.HoldsValue I env
  | [] => by simp
  | node :: rest => by simpa using ⟨holdsValue node, holdsValueAll rest⟩

end

/-- Expressions that apply operations to constants and variables. -/
inductive PureExpr : Node → Prop
  | constant {i : Instruction} {idiom : Option Idiom} (h : i.isOp .constant = true) :
    PureExpr (tree .nameExpr [token i] idiom)
  | reference {i : Instruction} {idiom : Option Idiom} (h : i.isOp .varref = true) :
    PureExpr (tree .expr [token i] idiom)
  | wrapper {node : Node} {idiom : Option Idiom} (h : PureExpr node) :
    PureExpr (tree .expr [node] idiom)
  | nullary {op : Node} {o : Opcode} {idiom : Option Idiom} (hop : op.opcode? .nullaryOp = some o)
    (hclass : o.opClass = .nullary) : PureExpr (tree .nullaryExpr [op] idiom)
  | unary {a op : Node} {o : Opcode} {idiom : Option Idiom} (hop : op.opcode? .unaryOp = some o)
    (hclass : o.opClass = .unary) (ha : PureExpr a) : PureExpr (tree .unaryExpr [a, op] idiom)
  | binary {a b op : Node} {o : Opcode} {idiom : Option Idiom}
    (hop : op.opcode? .binaryOp = some o) (hclass : o.opClass = .binary) (ha : PureExpr a)
    (hb : PureExpr b) : PureExpr (tree .binaryExpr [a, b, op] idiom)
  | ternary {a b c op : Node} {o : Opcode} {idiom : Option Idiom}
    (hop : op.opcode? .ternaryOp = some o) (hclass : o.opClass = .ternary) (ha : PureExpr a)
    (hb : PureExpr b) (hc : PureExpr c) : PureExpr (tree .ternaryExpr [a, b, c, op] idiom)
  /-- An operation on any number of operands, perhaps followed by their count. -/
  | counted {family : Family} {operands : List Node} {counts : List Instruction}
    {idiom : Option Idiom} (hfamily : family ≠ .call) (hoperands : ∀ a ∈ operands, PureExpr a)
    (hcounts : ∀ i ∈ counts, ∃ n, i.kind = .counted family n)
    (hsome : family.operation?.isSome = true → operands ≠ []) :
    PureExpr (tree (.counted family) (operands ++ counts.map token) idiom)

theorem exists_values? (h : ∀ n ∈ nodes, ∃ v, value? I env n = some v) :
    ∃ vs, values? I env nodes = some vs ∧ vs.length = nodes.length := by
  induction nodes with
  | nil => exact ⟨[], rfl, rfl⟩
  | cons node nodes ih =>
    obtain ⟨v, hv⟩ := h node (by simp)
    obtain ⟨vs, hvs, hlength⟩ := ih fun n hn => h n (List.mem_cons_of_mem _ hn)
    exact ⟨v :: vs, by simp [values?_cons hv, hvs], by simp [hlength]⟩

theorem values?_tokens (counts : List Instruction) :
    values? I env (counts.map token) = some [] := by
  induction counts with
  | nil => rfl
  | cons i counts ih => exact ih

/-- Every expression has a value. -/
theorem PureExpr.exists_value? (h : node.PureExpr) : ∃ v, value? I env node = some v := by
  induction h with
  | constant h => exact ⟨_, if_pos h⟩
  | reference h => exact ⟨_, if_pos h⟩
  | wrapper _ ih => exact ih.imp fun _ => value?_wrapper
  | nullary hop => exact ⟨_, value?_nullary hop⟩
  | unary hop _ _ iha =>
    obtain ⟨x, hx⟩ := iha
    exact ⟨_, value?_unary hop hx⟩
  | binary hop _ _ _ iha ihb =>
    obtain ⟨x, hx⟩ := iha
    obtain ⟨y, hy⟩ := ihb
    exact ⟨_, value?_binary hop hx hy⟩
  | ternary hop _ _ _ _ iha ihb ihc =>
    obtain ⟨x, hx⟩ := iha
    obtain ⟨y, hy⟩ := ihb
    obtain ⟨z, hz⟩ := ihc
    exact ⟨_, value?_ternary hop hx hy hz⟩
  | @counted family operands counts idiom hfamily _ _ hsome ih =>
    obtain ⟨vs, hvs, hlength⟩ := exists_values? ih
    have hnonempty : vs = [] → family.operation? = none := by
      rintro rfl
      have hempty : operands = [] := List.length_eq_zero_iff.1 hlength.symm
      exact Option.not_isSome_iff_eq_none.1 fun hoperation => hsome hoperation hempty
    refine ⟨I.gather family vs, ?_⟩
    rw [value?, values?_append hvs (values?_tokens counts), List.append_nil]
    simpa [Interpretation.gather?, hfamily] using hnonempty

/-- Recognising idioms keeps the value of an expression, whatever its operations stand for and
whatever values its variables have. -/
theorem PureExpr.value?_idiomatic (h : node.PureExpr) (I : Interpretation V) (env : String → V) :
    ∃ v, value? I env node = some v ∧ value? I env node.idiomatic = some v :=
  h.exists_value?.imp fun v hv => ⟨hv, holdsValue node v hv⟩

end Node

/-- Operations on integers, of which zero is false. -/
def onIntegers : Opcode → List Int → Int
  | .max, [a, b] => max a b
  | .min, [a, b] => min a b
  | .eqlsign, [a, b] => if a = b then 1 else 0
  | .neqlsign, [a, b] => if a = b then 0 else 1
  | .not, [a] => if a = 0 then 1 else 0
  | _, _ => 0

def integers : Interpretation Int where
  constant operand := (operand.bind Operand.int?).getD 0
  apply := onIntegers
  gather family values :=
    match family.operation?, values with
    | some op, a :: rest => rest.foldl (fun x y => onIntegers op [x, y]) a
    | _, _ => 0
  neqlsign a b := by by_cases h : a = b <;> simp [onIntegers, h]
  caar _ := rfl
  cadr _ := rfl
  cdar _ := rfl
  cddr _ := rfl
  assoc family op h a b c := by
    cases family <;> cases h
    · exact Int.max_assoc a b c
    · exact Int.min_assoc a b c
    · rfl
  gather_cons family op h a rest := by simp [h]

namespace Node

/-- The expression `(not (= (max (max a 1) b) c))`. -/
def unequalToMaximum : Node :=
  let reference (name : String) : Node :=
    .plain .expr [.token (.ofOpcode .varref (some (.symbol name)) 0)]
  let one : Node := .plain .nameExpr [.token (.ofOpcode .constant (some (.int 1)) 0)]
  let maximum (a b : Node) : Node :=
    .plain .expr [.plain .binaryExpr [a, b, operator .binaryOp .max 0]]
  .plain .unaryExpr [.plain .expr [.plain .binaryExpr [maximum (maximum (reference "a") one)
    (reference "b"), reference "c", operator .binaryOp .eqlsign 0]], operator .unaryOp .not 0]

theorem PureExpr.value?_idiomatic_unequalToMaximum : unequalToMaximum.PureExpr ∧
    ∃ v, value? integers (fun _ => 2) unequalToMaximum = some v ∧
      value? integers (fun _ => 2) unequalToMaximum.idiomatic = some v := by
  have hreference (name : String) :
      (plain .expr [.token (.ofOpcode .varref (some (.symbol name)) 0)]).PureExpr := .reference rfl
  have hmaximum {a b : Node} (ha : a.PureExpr) (hb : b.PureExpr) :
      (plain .expr [.plain .binaryExpr [a, b, operator .binaryOp .max 0]]).PureExpr :=
    .wrapper (.binary (opcode?_operator _ _ _) rfl ha hb)
  have hpure : unequalToMaximum.PureExpr :=
    .unary (opcode?_operator _ _ _) rfl (.wrapper (.binary (opcode?_operator _ _ _) rfl
      (hmaximum (hmaximum (hreference "a") (.constant rfl)) (hreference "b")) (hreference "c")))
  exact ⟨hpure, hpure.value?_idiomatic integers fun _ => 2⟩

end Node

end ElispLift

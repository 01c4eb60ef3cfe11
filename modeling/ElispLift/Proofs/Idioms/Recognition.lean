import ElispLift.Idioms

/-!
# Recognised idioms

What a node is known to hold if it has the shape of an idiom, and the form that takes its place. All
that is proved of idioms starts with these cases, one for each of them.
-/

namespace ElispLift.Idiom

open Node

variable {kind : Nonterminal} {children : List Node} {node : Node}

/-- A node of a kind with these children has the shape of an idiom, and a form takes its place. -/
inductive Makes : Nonterminal → List Node → Node → Prop
  | notEqual {operand op a b inner : Node} {sign : Instruction} {idiom : Option Idiom}
      (hop : op.operatorIs .not = true)
      (hu : operand.unwrap = tree .binaryExpr [a, b, inner] idiom)
      (hsign : inner.operator? = some sign) (hequal : sign.isOp .eqlsign = true) :
      Makes .unaryExpr [operand, op]
        (made .notEqual .binaryExpr [a, b, operator .binaryOp .neqlsign sign.offset])
  | cxr {operand op x innerOp : Node} {outer inner : Bool} {idiom : Option Idiom}
      (houter : takesHead? op = some outer)
      (hu : operand.unwrap = tree .unaryExpr [x, innerOp] idiom)
      (hinner : takesHead? innerOp = some inner) :
      Makes .unaryExpr [operand, op] (made .cxr .unaryExpr
        [x, operator .unaryOp (combined outer inner) ((op.operator?.map (·.offset)).getD 0)])
  | flatten {a b op : Node} {rest : List Node} {opcode : Opcode} {family : Family}
      (hmem : (opcode, family) ∈ associative) (hop : op.operatorIs opcode = true) :
      Makes .binaryExpr (a :: b :: op :: rest) (made .flatten (.counted family)
        (arguments opcode family a a ++ arguments opcode family b b))
  | defvar {callee value call : Node} {function : Instruction} {text : String} {d : Definition}
      (hcallee : callee.constant? = some function) (htext : function.operandText? = some text)
      (hd : definition? text = some d) :
      Makes (.counted .call) [callee, value, call] (made .defvar d.kind
        (token (.ofOpcode .constant (some (.symbol d.name)) function.offset) :: value ::
          (d.doc.map fun doc =>
            token (.ofOpcode .constant (some (.str doc)) function.offset)).toList))
  | kbd {children : List Node} {first old : Node} {function key : Instruction} {callee : String}
      {place : Nat} {operand : Operand} {description : String}
      (hfirst : children.head? = some first) (hfunction : first.constant? = some function)
      (hcallee : function.operandText? = some callee)
      (hplace : keyPlace? callee children.length = some place)
      (hold : children[place]? = some old) (hkey : old.constant? = some key)
      (hoperand : key.operand = some operand) (hd : Keys.describe? operand = some description) :
      Makes (.counted .call) children (made .kbd (.counted .call) (children.set place
        (plain .expr [plain .kbd [.token
          (.ofOpcode .constant (some (.str ("\"" ++ description ++ "\""))) key.offset)]])))
  | andStatement {expr discard : Node} {parts : List Node} {idiom : Option Idiom}
      (hdiscard : discard.children.isEmpty = false)
      (hu : expr.unwrap = tree .andForm parts idiom) (hlength : parts.length = 5) :
      Makes .exprStmt [expr, discard]
        (made .andStatement .exprStmt [plain .expr [made .andStatement .ifForm parts], discard])
  | whenToIf {condition jump body comeFroms label only first : Node}
      (hbody : body.statements = [only]) (hfirst : only.child? 0 = some first) :
      Makes .whenMacro [condition, jump, body, comeFroms, label] (made .whenToIf .ifForm
        [condition, jump, first, plain .optComeFrom comeFroms.children, plain .optLabel [label]])
  | withCurrentBuffer {save body unbind first expr optDiscard discard buffer set : Node}
      {rest : List Node} {idiom : Option Idiom}
      (hbody : body.statements = first :: rest) (hfirst : first.children = [expr, optDiscard])
      (hu : expr.unwrap = tree .setBuffer [buffer, set] idiom)
      (hdiscard : optDiscard.child? 0 = some discard) :
      Makes .saveCurrentBufferForm [save, body, unbind]
        (made .withCurrentBuffer .withCurrentBufferMacro
          [save, buffer, set, discard, plain .exprs rest, unbind])
  | withTempBuffer {children inner inside rest : List Node}
      {varlist body first evaluated buffer list : Node} {idiom : Option Idiom}
      (hvarlist : children.head? = some varlist) (hbinds : bindsTempBuffer varlist = true)
      (hbody : children[1]? = some body) (hstatements : body.statements = first :: rest)
      (hevaluated : first.child? 0 = some evaluated)
      (hu : evaluated.unwrap = tree .withCurrentBufferMacro inner idiom)
      (hbuffer : inner[1]? = some buffer) (hrefers : buffer.refersTo tempBuffer = true)
      (hlist : inner[4]? = some list) (hinside : unprotected list.children = some inside) :
      Makes .letFormStar children
        (made .withTempBuffer .withTempBufferMacro [plain .exprs (inside ++ rest)])
  | dolist {children : List Node} {step name head list body : Node}
      (hstep : children[5]? = some step) (hset : step.isKind .dolistLoopIterSet = true)
      (hname : step.child? 2 = some name) (hhead : children.head? = some head)
      (hlist : head.child? 0 = some list) (hbody : children[6]? = some body) :
      Makes .dolistMacro children
        (made .dolist .dolist [name, list, plain .exprs (withoutAdvance body.statements)])

theorem makes_of_notEqual? (h : notEqual? children = some node) :
    Makes .unaryExpr children node := by
  unfold notEqual? at h
  split at h
  case h_2 => cases h
  split at h
  case isFalse => cases h
  case isTrue hop =>
    split at h
    case h_2 => cases h
    case h_1 hu =>
      obtain ⟨sign, hsign, h⟩ := Option.bind_eq_some_iff.1 h
      split at h
      case isFalse => cases h
      case isTrue hequal =>
        cases h
        exact .notEqual hop hu hsign hequal

theorem makes_of_cxr? (h : cxr? children = some node) : Makes .unaryExpr children node := by
  unfold cxr? at h
  split at h
  case h_2 => cases h
  obtain ⟨outer, houter, h⟩ := Option.bind_eq_some_iff.1 h
  split at h
  case h_2 => cases h
  case h_1 hu =>
    obtain ⟨inner, hinner, h⟩ := Option.bind_eq_some_iff.1 h
    cases h
    exact .cxr houter hu hinner

theorem makes_of_flatten? (h : flatten? children = some node) :
    Makes .binaryExpr children node := by
  unfold flatten? at h
  split at h
  case h_2 => cases h
  obtain ⟨⟨opcode, family⟩, hfind, h⟩ := Option.bind_eq_some_iff.1 h
  dsimp only at h
  split at h
  case isTrue => cases h
  cases h
  exact .flatten (List.mem_of_find?_eq_some hfind) (by simpa using List.find?_some hfind)

theorem makes_of_defvar? (h : defvar? children = some node) :
    Makes (.counted .call) children node := by
  unfold defvar? at h
  split at h
  case h_2 => cases h
  simp only [Option.bind_eq_bind, Option.bind_eq_some_iff] at h
  obtain ⟨function, hcallee, text, htext, d, hd, h⟩ := h
  cases h
  exact .defvar hcallee htext hd

theorem makes_of_kbd? (h : kbd? (.counted .call) children = some node) :
    Makes (.counted .call) children node := by
  simp only [kbd?, Option.bind_eq_bind, Option.bind_eq_some_iff] at h
  obtain ⟨first, hfirst, function, hfunction, callee, hcallee, place, hplace, old, hold, key, hkey,
    operand, hoperand, description, hd, h⟩ := h
  cases h
  exact .kbd hfirst hfunction hcallee hplace hold hkey hoperand hd

theorem makes_of_andStatement? (h : andStatement? children = some node) :
    Makes .exprStmt children node := by
  unfold andStatement? at h
  split at h
  case h_2 => cases h
  split at h
  case isTrue => cases h
  case isFalse hdiscard =>
    split at h
    case h_2 => cases h
    case h_1 hu =>
      split at h
      case isFalse => cases h
      case isTrue hlength =>
        cases h
        exact .andStatement (by simpa using hdiscard) hu hlength

theorem makes_of_whenToIf? (h : whenToIf? children = some node) :
    Makes .whenMacro children node := by
  unfold whenToIf? at h
  split at h
  case h_2 => cases h
  split at h
  case h_2 => cases h
  case h_1 hbody =>
    obtain ⟨first, hfirst, h⟩ := Option.bind_eq_some_iff.1 h
    cases h
    exact .whenToIf hbody hfirst

theorem makes_of_withCurrentBuffer? (h : withCurrentBuffer? children = some node) :
    Makes .saveCurrentBufferForm children node := by
  unfold withCurrentBuffer? at h
  split at h
  case h_2 => cases h
  split at h
  case h_2 => cases h
  case h_1 hbody =>
    split at h
    case h_2 => cases h
    case h_1 hfirst =>
      split at h
      case h_2 => cases h
      case h_1 hu =>
        obtain ⟨discard, hdiscard, h⟩ := Option.bind_eq_some_iff.1 h
        split at h
        case h_2 => cases h
        cases h
        exact .withCurrentBuffer hbody hfirst hu hdiscard

theorem makes_of_withTempBuffer? (h : withTempBuffer? children = some node) :
    Makes .letFormStar children node := by
  simp only [withTempBuffer?, Option.bind_eq_bind, Option.bind_eq_some_iff] at h
  obtain ⟨varlist, hvarlist, h⟩ := h
  split at h
  case isTrue => cases h
  case isFalse hbinds =>
    obtain ⟨body, hbody, h⟩ := Option.bind_eq_some_iff.1 h
    split at h
    case h_2 => cases h
    case h_1 hstatements =>
      obtain ⟨evaluated, hevaluated, h⟩ := Option.bind_eq_some_iff.1 h
      split at h
      case h_2 => cases h
      case h_1 hu =>
        obtain ⟨buffer, hbuffer, h⟩ := Option.bind_eq_some_iff.1 h
        split at h
        case isTrue => cases h
        case isFalse hrefers =>
          obtain ⟨list, hlist, h⟩ := Option.bind_eq_some_iff.1 h
          obtain ⟨inside, hinside, h⟩ := Option.bind_eq_some_iff.1 h
          cases h
          exact .withTempBuffer hvarlist (by simpa using hbinds) hbody hstatements hevaluated hu
            hbuffer (by simpa using hrefers) hlist hinside

theorem makes_of_dolist? (h : dolist? children = some node) :
    Makes .dolistMacro children node := by
  simp only [dolist?, Option.bind_eq_bind, Option.bind_eq_some_iff] at h
  obtain ⟨step, hstep, h⟩ := h
  split at h
  case isTrue => cases h
  case isFalse hset =>
    simp only [Option.bind_eq_some_iff] at h
    obtain ⟨name, hname, head, hhead, list, hlist, body, hbody, h⟩ := h
    cases h
    exact .dolist hstep (by simpa using hset) hname hhead hlist hbody

theorem makes_of_recognize? (h : recognize? kind children = some node) :
    Makes kind children node := by
  unfold recognize? at h
  split at h
  · rcases Option.or_eq_some_iff.1 h with h | ⟨-, h⟩
    · exact makes_of_notEqual? h
    · exact makes_of_cxr? h
  · exact makes_of_flatten? h
  · rcases Option.or_eq_some_iff.1 h with h | ⟨-, h⟩
    · exact makes_of_defvar? h
    · exact makes_of_kbd? h
  · exact makes_of_andStatement? h
  · exact makes_of_whenToIf? h
  · exact makes_of_withCurrentBuffer? h
  · exact makes_of_withTempBuffer? h
  · exact makes_of_dolist? h
  · cases h

end ElispLift.Idiom

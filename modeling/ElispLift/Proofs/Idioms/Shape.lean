import ElispLift.Proofs.Source.Shape

/-!
# Idioms keep the shape

A form that takes the place of a node fits if the node and its children did, and the node above sees
no difference. Idioms make no loops and no instructions that read the stack.
-/

namespace ElispLift

namespace Node

/-- What idioms keep: a tree fits everywhere, its loops start with values that do not read the
stack, and if `quiet` nothing in it does. -/
structure Sound (quiet : Prop) (node : Node) : Prop where
  shaped : node.Shaped
  loops : node.LoopsStartQuiet
  isQuiet : quiet → node.isQuiet = true

variable {quiet : Prop} {kind : Nonterminal} {children : List Node} {idiom : Option Idiom}

theorem sound_tree : (tree kind children idiom).Sound quiet ↔
    kind.fits (children.map role) = true ∧ (tree kind children idiom).startsQuiet = true ∧
      ∀ c ∈ children, c.Sound quiet := by
  constructor
  · rintro ⟨hshaped, hloops, hquiet⟩
    obtain ⟨hfits, hshaped⟩ := shaped_tree.1 hshaped
    obtain ⟨hstart, hloops⟩ := loopsStartQuiet_tree.1 hloops
    exact ⟨hfits, hstart, fun c hc =>
      ⟨hshaped c hc, hloops c hc, fun h => isQuiet_tree.1 (hquiet h) c hc⟩⟩
  · rintro ⟨hfits, hstart, hs⟩
    exact ⟨shaped_tree.2 ⟨hfits, fun c hc => (hs c hc).shaped⟩,
      loopsStartQuiet_tree.2 ⟨hstart, fun c hc => (hs c hc).loops⟩,
      fun h => isQuiet_tree.2 fun c hc => (hs c hc).isQuiet h⟩

theorem sound_instruction {i : Instruction} (h : i.readsStack = false) :
    (token i).Sound quiet := by
  refine ⟨by simp [Shaped, subnodes, fits], by simp [LoopsStartQuiet, subnodes, startsQuiet], ?_⟩
  simp [Node.isQuiet, tokens, h]

namespace Sound

variable {node c : Node}

theorem fits (h : (tree kind children idiom).Sound quiet) :
    kind.fits (children.map role) = true := (sound_tree.1 h).1

theorem of_mem (h : node.Sound quiet) (hc : c ∈ node.children) : c.Sound quiet := by
  cases node with
  | token i => simp [Node.children] at hc
  | tree kind children idiom => exact (sound_tree.1 h).2.2 c hc

theorem child? (h : node.Sound quiet) {n : Nat} (hc : node.child? n = some c) : c.Sound quiet :=
  h.of_mem (List.mem_of_getElem? hc)

theorem unwrap (h : node.Sound quiet) : node.unwrap.Sound quiet := by
  fun_induction Node.unwrap node with
  | case1 only idiom ih => exact ih (h.of_mem (List.mem_singleton_self only))
  | case2 only idiom ih => exact ih (h.of_mem (List.mem_singleton_self only))
  | case3 => exact h

theorem of_unwrap (h : node.Sound quiet) (hu : node.unwrap = tree kind children idiom) :
    (tree kind children idiom).Sound quiet := hu ▸ h.unwrap

/-- The items of a list of statements are statements. -/
theorem items (h : (tree kind children idiom).Sound quiet)
    (hkind : kind = .exprs ∨ kind = .optExprs) :
    ∀ s ∈ children, s.Sound quiet ∧ s.role = .known .exprStmt := by
  have hfits := h.fits
  intro s hs
  refine ⟨h.of_mem hs, ?_⟩
  rcases hkind with rfl | rfl <;>
    exact of_decide_eq_true (all_roles.1 hfits s hs)

/-- The first child of a statement is what it evaluates. -/
theorem evaluated (h : node.Sound quiet) (hrole : node.role = .known .exprStmt)
    (hc : node.child? 0 = some c) : c.Sound quiet ∧ c.role.isRendered = true := by
  obtain ⟨children, idiom, rfl⟩ := eq_tree_of_role hrole
  obtain ⟨c', hc', hrendered⟩ := any_role.1 h.fits
  obtain rfl : c' = c := Option.some.inj (hc'.symm.trans hc)
  exact ⟨h.child? hc, hrendered⟩

theorem statements (h : node.Sound quiet) (hrole : node.role = .known .body) :
    ∀ s ∈ node.statements, s.Sound quiet ∧ s.role = .known .exprStmt := by
  obtain ⟨children, idiom, rfl⟩ := eq_tree_of_role hrole
  have hfits : children.map role = [.known .exprs] := of_decide_eq_true h.fits
  obtain ⟨list, rfl, hlist⟩ := List.map_eq_singleton_iff.1 hfits
  obtain ⟨items, idiom', rfl⟩ := eq_tree_of_role hlist
  exact (h.of_mem (List.mem_singleton_self _)).items (.inl rfl)

end Sound

/-- Some statements are a list of statements. -/
theorem sound_statements {nodes : List Node}
    (h : ∀ s ∈ nodes, s.Sound quiet ∧ s.role = .known .exprStmt) :
    (plain .exprs nodes).Sound quiet :=
  sound_tree.2 ⟨all_roles.2 fun s hs => decide_eq_true (h s hs).2, rfl, fun s hs => (h s hs).1⟩

end Node

namespace Idiom

open Node

variable {quiet : Prop} {children : List Node} {node : Node}

/-- An operation on its own fits. -/
theorem sound_operator {kind : Nonterminal} {op : Opcode} {offset : Nat}
    (hkind : kind = .unaryOp ∨ kind = .binaryOp) (hdup : op ≠ .dup) (href : op ≠ .stackRef) :
    (operator kind op offset).Sound quiet ∧ (operator kind op offset).role = .part := by
  have hquiet : (Instruction.ofOpcode op none offset).readsStack = false := by
    simp [Instruction.readsStack, Instruction.isOp, Instruction.ofOpcode, hdup, href]
  have hop : (token (.ofOpcode op none offset)).Sound quiet := sound_instruction hquiet
  rcases hkind with rfl | rfl <;>
    exact ⟨sound_tree.2 ⟨rfl, rfl, by simpa using hop⟩, rfl⟩

theorem notEqual_sound {operand a b inner : Node} {idiom : Option Idiom} {offset : Nat}
    (h : operand.Sound quiet) (hu : operand.unwrap = tree .binaryExpr [a, b, inner] idiom) :
    (made .notEqual .binaryExpr [a, b, operator .binaryOp .neqlsign offset]).Sound quiet := by
  have hp := h.of_unwrap hu
  have hfits := hp.fits
  obtain ⟨hop, hrole⟩ : (operator .binaryOp .neqlsign offset).Sound quiet ∧
      (operator .binaryOp .neqlsign offset).role = .part := sound_operator (.inr rfl) nofun nofun
  have ha : a.Sound quiet := hp.of_mem (by simp [Node.children])
  have hb : b.Sound quiet := hp.of_mem (by simp [Node.children])
  refine sound_tree.2 ⟨?_, rfl, by simpa [hop] using ⟨ha, hb⟩⟩
  simp_all [Nonterminal.fits, Role.isRendered]

theorem cxr_sound {operand x innerOp : Node} {outer inner : Bool} {idiom : Option Idiom}
    {offset : Nat} (h : operand.Sound quiet)
    (hu : operand.unwrap = tree .unaryExpr [x, innerOp] idiom) :
    (made .cxr .unaryExpr [x, operator .unaryOp (combined outer inner) offset]).Sound quiet := by
  have hp := h.of_unwrap hu
  have hx : x.Sound quiet := hp.of_mem List.mem_cons_self
  have hfits := hp.fits
  obtain ⟨hop, hrole⟩ : (operator .unaryOp (combined outer inner) offset).Sound quiet ∧
      (operator .unaryOp (combined outer inner) offset).role = .part :=
    sound_operator (.inl rfl) (by cases outer <;> cases inner <;> nofun)
      (by cases outer <;> cases inner <;> nofun)
  refine sound_tree.2 ⟨?_, rfl, by simpa [hop] using hx⟩
  simp_all [Nonterminal.fits, Role.isRendered]

/-- The arguments of nested applications are rendered by themselves. -/
theorem arguments_sound {op : Opcode} {family : Family} {whole : Node}
    (hw : whole.Sound quiet ∧ whole.role.isRendered = true) (hn : node.Sound quiet) :
    ∀ a ∈ arguments op family whole node, a.Sound quiet ∧ a.role.isRendered = true := by
  fun_induction arguments op family whole node with
  | case1 whole only idiom ih => exact ih hw (hn.of_mem (List.mem_singleton_self only))
  | case2 whole only idiom ih => exact ih hw (hn.of_mem (List.mem_singleton_self only))
  | case3 whole a b o rest idiom ho iha ihb =>
    have hfits := hn.fits
    have ha : a.Sound quiet := hn.of_mem (by simp [Node.children])
    have hb : b.Sound quiet := hn.of_mem (by simp [Node.children])
    simp only [Nonterminal.fits, List.map_cons, List.all_cons, Bool.and_eq_true] at hfits
    intro m hm
    rcases List.mem_append.1 hm with hm | hm
    · exact iha ⟨ha, hfits.1.1⟩ ha m hm
    · exact ihb ⟨hb, hfits.1.2.1⟩ hb m hm
  | case4 => simpa using hw
  | case5 whole children idiom _ =>
    have hfits := hn.fits
    have hall : (children.map role).all Role.isRendered = true := by
      cases family <;> simp_all [Nonterminal.fits]
    intro a ha
    exact ⟨hn.of_mem ha, by simpa using List.all_eq_true.1 hall _ (List.mem_map_of_mem ha)⟩
  | case6 => simpa using hw
  | case7 => simpa using hw

theorem flatten_sound {a b op : Node} {rest : List Node} {opcode : Opcode} {family : Family}
    (hn : (tree .binaryExpr (a :: b :: op :: rest) none).Sound quiet)
    (hmem : (opcode, family) ∈ associative) :
    (made .flatten (.counted family)
      (arguments opcode family a a ++ arguments opcode family b b)).Sound quiet := by
  have hfits := hn.fits
  have ha : a.Sound quiet := hn.of_mem (by simp [Node.children])
  have hb : b.Sound quiet := hn.of_mem (by simp [Node.children])
  simp only [Nonterminal.fits, List.map_cons, List.all_cons, Bool.and_eq_true] at hfits
  have hargs : ∀ m ∈ arguments opcode family a a ++ arguments opcode family b b,
      m.Sound quiet ∧ m.role.isRendered = true := by
    intro m hm
    rcases List.mem_append.1 hm with hm | hm
    · exact arguments_sound ⟨ha, hfits.1.1⟩ ha m hm
    · exact arguments_sound ⟨hb, hfits.1.2.1⟩ hb m hm
  refine sound_tree.2 ⟨?_, rfl, fun m hm => (hargs m hm).1⟩
  have hfamily : family ≠ .call := by
    simp only [associative, List.mem_cons, Prod.mk.injEq, List.not_mem_nil, or_false] at hmem
    rcases hmem with ⟨-, rfl⟩ | ⟨-, rfl⟩ | ⟨-, rfl⟩ <;> decide
  have hall : ((arguments opcode family a a ++ arguments opcode family b b).map role).all
      Role.isRendered = true := all_roles.2 fun m hm => (hargs m hm).2
  cases family <;> first
    | exact (hfamily rfl).elim
    | exact hall

theorem sound_constant {operand : Option Operand} {offset : Nat} :
    (token (.ofOpcode .constant operand offset)).Sound quiet := sound_instruction rfl

theorem fits_definition {d : Definition} {text : String} {value : Role}
    (h : definition? text = some d) (hvalue : value.isRendered = true) :
    d.kind.fits (.instruction :: value :: (d.doc.map fun _ => .instruction).toList) = true ∧
      d.kind.role = .part ∧ d.kind ≠ .whileForm1 := by
  rcases definition?_kind h with hk | hk <;> rw [hk] <;> cases d.doc <;>
    exact ⟨by simp [Nonterminal.fits, Nonterminal.fitsTemplate, Nonterminal.template?,
      Directive.call, Directive.block, Directive.fits, hvalue], rfl, by simp⟩

theorem defvar_sound {callee value call : Node} {text : String} {d : Definition} {offset : Nat}
    (hn : (tree (.counted .call) [callee, value, call] none).Sound quiet)
    (hd : definition? text = some d) :
    (made .defvar d.kind (token (.ofOpcode .constant (some (.symbol d.name)) offset) :: value ::
        (d.doc.map fun doc => token (.ofOpcode .constant (some (.str doc)) offset)).toList)).Sound
      quiet := by
  have hv : value.Sound quiet := hn.of_mem (by simp [Node.children])
  have hrendered : value.role.isRendered = true := by
    have hfits := hn.fits
    simp only [Nonterminal.fits, List.map_cons, List.all_cons, Bool.and_eq_true] at hfits
    exact hfits.1.2.1
  obtain ⟨hfits, -, hne⟩ := fits_definition hd hrendered
  refine sound_tree.2 ⟨?_, startsQuiet_tree.2 fun hkind => (hne hkind).elim, ?_⟩
  · cases hdoc : d.doc <;> simpa [hdoc] using hfits
  · cases d.doc <;> simp [hv, sound_constant]

/-- The key in words stands behind what is called. -/
theorem kbd_sound {old : Node} {place : Nat} {operand : Option Operand} {offset : Nat}
    (hn : (tree (.counted .call) children none).Sound quiet)
    (hold : children[place]? = some old) :
    (made .kbd (.counted .call) (children.set place (plain .expr [plain .kbd
      [.token (.ofOpcode .constant operand offset)]]))).Sound quiet := by
  have hfits := hn.fits
  simp only [Nonterminal.fits, Bool.and_eq_true] at hfits
  have hlt : place < children.length := (List.getElem?_eq_some_iff.1 hold).1
  have hkbd : (plain .kbd [.token (.ofOpcode .constant operand offset)]).Sound quiet :=
    sound_tree.2 ⟨rfl, rfl, by simpa using sound_constant⟩
  have hword : (plain .expr [plain .kbd
      [.token (.ofOpcode .constant operand offset)]]).Sound quiet :=
    sound_tree.2 ⟨rfl, rfl, by simpa using hkbd⟩
  refine sound_tree.2 ⟨?_, rfl, fun c hc => ?_⟩
  · have hmem := List.mem_map_of_mem (f := role) (List.mem_set hlt (plain .expr [plain .kbd
      [.token (.ofOpcode .constant operand offset)]]))
    refine Bool.and_eq_true_iff.2 ⟨all_roles.2 fun c hc => ?_, List.any_eq_true.2 ⟨_, hmem, rfl⟩⟩
    rcases List.mem_or_eq_of_mem_set hc with hc | rfl
    · exact all_roles.1 hfits.1 c hc
    · rfl
  · rcases List.mem_or_eq_of_mem_set hc with hc | rfl
    · exact hn.of_mem hc
    · exact hword

theorem andStatement_sound {expr discard : Node} {parts : List Node} {idiom : Option Idiom}
    (hexpr : expr.Sound quiet) (hdiscard : discard.Sound quiet)
    (hu : expr.unwrap = tree .andForm parts idiom) :
    (made .andStatement .exprStmt
      [plain .expr [made .andStatement .ifForm parts], discard]).Sound quiet := by
  have hand := hexpr.of_unwrap hu
  have hif : (made .andStatement .ifForm parts).Sound quiet :=
    sound_tree.2 ⟨hand.fits, rfl, fun c hc => hand.of_mem hc⟩
  have hinner : (plain .expr [made .andStatement .ifForm parts]).Sound quiet :=
    sound_tree.2 ⟨rfl, rfl, by simpa using hif⟩
  exact sound_tree.2 ⟨rfl, rfl, by simpa [hinner] using hdiscard⟩

theorem whenToIf_sound {condition jump body comeFroms label only first : Node}
    (hn : (tree .whenMacro [condition, jump, body, comeFroms, label] none).Sound quiet)
    (hbody : body.statements = [only]) (hfirst : only.child? 0 = some first) :
    (made .whenToIf .ifForm [condition, jump, first, plain .optComeFrom comeFroms.children,
      plain .optLabel [label]]).Sound quiet := by
  have hs : ∀ c ∈ [condition, jump, body, comeFroms, label], c.Sound quiet :=
    fun c hc => hn.of_mem hc
  have hfits : condition.role.isRendered = true ∧ body.role = .known .body := by
    have hall := hn.fits
    simp [Nonterminal.fits, Nonterminal.fitsTemplate, Nonterminal.template?, Directive.block,
      Directive.fits] at hall
    exact ⟨hall.1.1, hall.2⟩
  obtain ⟨honly, hstatement⟩ := (hs body (by simp)).statements hfits.2 only (by simp [hbody])
  obtain ⟨hbegins, hrendered⟩ := honly.evaluated hstatement hfirst
  have hcome : (plain .optComeFrom comeFroms.children).Sound quiet :=
    sound_tree.2 ⟨rfl, rfl, fun c hc => (hs comeFroms (by simp)).of_mem hc⟩
  have hlabel : (plain .optLabel [label]).Sound quiet :=
    sound_tree.2 ⟨rfl, rfl, by simpa using hs label (by simp)⟩
  refine sound_tree.2 ⟨?_, rfl, ?_⟩
  · simp [Nonterminal.fits, Nonterminal.fitsTemplate, Nonterminal.template?, Directive.fits,
      hfits.1, hrendered]
  · simp [hs condition (by simp), hs jump (by simp), hbegins, hcome, hlabel]

theorem withCurrentBuffer_sound
    {save body unbind first expr optDiscard discard buffer set : Node} {rest : List Node}
    {idiom : Option Idiom}
    (hn : (tree .saveCurrentBufferForm [save, body, unbind] none).Sound quiet)
    (hbody : body.statements = first :: rest) (hfirst : first.children = [expr, optDiscard])
    (hu : expr.unwrap = tree .setBuffer [buffer, set] idiom)
    (hdiscard : optDiscard.child? 0 = some discard) :
    (made .withCurrentBuffer .withCurrentBufferMacro
      [save, buffer, set, discard, plain .exprs rest, unbind]).Sound quiet := by
  have hrole : body.role = .known .body := by
    have hall := hn.fits
    simp [Nonterminal.fits, Nonterminal.fitsTemplate, Nonterminal.template?, Directive.block,
      Directive.fits] at hall
    exact hall.2
  have hstatements := (hn.of_mem (c := body) (by simp [Node.children])).statements hrole
  have hbegins : first.Sound quiet := (hstatements first (by simp [hbody])).1
  have hset := (hbegins.of_mem (c := expr) (by simp [hfirst])).of_unwrap hu
  have hopt : optDiscard.Sound quiet := hbegins.of_mem (by simp [hfirst])
  have hrest : (plain .exprs rest).Sound quiet :=
    sound_statements fun s hs => hstatements s (by simp [hbody, hs])
  have hbuffer : buffer.role.isRendered = true := by
    have hall := hset.fits
    simp [Nonterminal.fits, Nonterminal.fitsTemplate, Nonterminal.template?, Directive.call,
      Directive.fits] at hall
    exact hall
  have hparts : ∀ c ∈ [buffer, set], c.Sound quiet := fun c hc => hset.of_mem hc
  have hends : ∀ c ∈ [save, body, unbind], c.Sound quiet := fun c hc => hn.of_mem hc
  refine sound_tree.2 ⟨?_, rfl, ?_⟩
  · have hlist : (plain .exprs rest).role = .known .exprs := rfl
    simp [Nonterminal.fits, Nonterminal.fitsTemplate, Nonterminal.template?, Directive.block,
      Directive.fits, hbuffer, hlist, Nonterminal.isRendered]
  · simp [hends save (by simp), hends unbind (by simp), hparts buffer (by simp),
      hparts set (by simp), hopt.child? hdiscard, hrest]

theorem unprotected_sound {statements rest : List Node}
    (hs : ∀ s ∈ statements, s.Sound quiet ∧ s.role = .known .exprStmt)
    (h : unprotected statements = some rest) :
    ∀ s ∈ rest, s.Sound quiet ∧ s.role = .known .exprStmt := by
  unfold unprotected at h
  split at h
  case h_2 => exact Option.some.inj h ▸ hs
  case h_1 only =>
    split at h
    case h_2 => exact Option.some.inj h ▸ hs
    case h_1 parts idiom hu =>
      obtain ⟨inner, hinner, hu⟩ := Option.map_eq_some_iff.1 hu
      obtain ⟨held, hheld, rfl⟩ := Option.map_eq_some_iff.1 h
      obtain ⟨honly, hstatement⟩ := hs only (by simp)
      have hform := (honly.evaluated hstatement hinner).1.of_unwrap hu
      obtain ⟨items, idiom', rfl⟩ :=
        eq_tree_of_role (role_eq_of_any (Bool.and_eq_true_iff.1 hform.fits).2 hheld)
      exact (hform.of_mem (List.mem_of_getElem? hheld)).items (.inr rfl)

theorem withTempBuffer_sound {body first evaluated list : Node} {inner inside rest : List Node}
    {idiom : Option Idiom} (hn : (tree .letFormStar children none).Sound quiet)
    (hbody : children[1]? = some body) (hfirst : body.statements = first :: rest)
    (hevaluated : first.child? 0 = some evaluated)
    (hu : evaluated.unwrap = tree .withCurrentBufferMacro inner idiom)
    (hlist : inner[4]? = some list) (hinside : unprotected list.children = some inside) :
    (made .withTempBuffer .withTempBufferMacro [plain .exprs (inside ++ rest)]).Sound quiet := by
  have hrole : body.role = .known .body :=
    role_eq_of_any (Bool.and_eq_true_iff.1 hn.fits).2 hbody
  have hstatements := (hn.of_mem (List.mem_of_getElem? hbody)).statements hrole
  obtain ⟨hbegins, hstatement⟩ := hstatements first (by simp [hfirst])
  have hinner := (hbegins.evaluated hstatement hevaluated).1.of_unwrap hu
  obtain ⟨items, idiom', rfl⟩ :=
    eq_tree_of_role (role_eq_of_any (Bool.and_eq_true_iff.1 hinner.fits).2 hlist)
  have hitems := (hinner.of_mem (List.mem_of_getElem? hlist)).items (.inl rfl)
  have hall : (plain .exprs (inside ++ rest)).Sound quiet := by
    refine sound_statements fun s hs => ?_
    rcases List.mem_append.1 hs with hs | hs
    · exact unprotected_sound hitems hinside s hs
    · exact hstatements s (by simp [hfirst, hs])
  exact sound_tree.2 ⟨rfl, rfl, by simpa using hall⟩

theorem dolist_sound {step name head list body : Node}
    (hn : (tree .dolistMacro children none).Sound quiet) (hstep : children[5]? = some step)
    (hset : step.isKind .dolistLoopIterSet = true) (hname : step.child? 2 = some name)
    (hhead : children.head? = some head) (hlist : head.child? 0 = some list)
    (hbody : children[6]? = some body) :
    (made .dolist .dolist [name, list, plain .exprs (withoutAdvance body.statements)]).Sound
      quiet := by
  have hfits := hn.fits
  simp only [Nonterminal.fits, Bool.and_eq_true] at hfits
  obtain ⟨⟨hfirst, -⟩, hlast⟩ := hfits
  have hrole : body.role = .known .body := by
    have hstep' : step.role = .known .dolistLoopIterSet := role_of_isKind hset
    simpa [List.getElem?_map, hstep, hbody, hstep'] using hlast
  rw [List.head?_eq_getElem?] at hhead
  obtain ⟨lists, idiom, rfl⟩ := eq_tree_of_role (role_eq_of_any hfirst hhead)
  have hlists := hn.of_mem (List.mem_of_getElem? hhead)
  have hrendered : list.role.isRendered = true :=
    all_roles.1 (Bool.and_eq_true_iff.1 hlists.fits).1 list (List.mem_of_getElem? hlist)
  have hstatements := (hn.of_mem (List.mem_of_getElem? hbody)).statements hrole
  have hb : (plain .exprs (withoutAdvance body.statements)).Sound quiet :=
    sound_statements fun s hs => hstatements s (withoutAdvance_subset _ hs)
  have hnamed := (hn.of_mem (List.mem_of_getElem? hstep)).child? hname
  have hl := hlists.child? hlist
  have hbody' : (plain .exprs (withoutAdvance body.statements)).role = .known .exprs := rfl
  refine sound_tree.2 ⟨?_, rfl, by simp [hnamed, hl, hb]⟩
  simp [Nonterminal.fits, Nonterminal.fitsTemplate, Nonterminal.template?, Directive.block,
    Directive.fits, hrendered, hbody', Nonterminal.isRendered]

/-- A form that takes the place of a node is as sound as the node, and is seen alike from above. -/
theorem recognize?_sound {kind : Nonterminal} (hn : (tree kind children none).Sound quiet)
    (h : recognize? kind children = some node) : node.Sound quiet ∧ node.role = kind.role := by
  have hs : ∀ c ∈ children, c.Sound quiet := fun c hc => hn.of_mem hc
  cases makes_of_recognize? h with
  | notEqual _ hu => exact ⟨notEqual_sound (hs _ (by simp)) hu, rfl⟩
  | cxr _ hu => exact ⟨cxr_sound (hs _ (by simp)) hu, rfl⟩
  | flatten hmem => exact ⟨flatten_sound hn hmem, rfl⟩
  | defvar _ _ hd => exact ⟨defvar_sound hn hd, (@fits_definition _ _ .part hd rfl).2.1⟩
  | kbd _ _ _ _ hold => exact ⟨kbd_sound hn hold, rfl⟩
  | andStatement _ hu => exact ⟨andStatement_sound (hs _ (by simp)) (hs _ (by simp)) hu, rfl⟩
  | whenToIf hbody hfirst => exact ⟨whenToIf_sound hn hbody hfirst, rfl⟩
  | withCurrentBuffer hbody hfirst hu hdiscard =>
    exact ⟨withCurrentBuffer_sound hn hbody hfirst hu hdiscard, rfl⟩
  | withTempBuffer _ _ hbody hfirst hevaluated hu _ _ hlist hinside =>
    exact ⟨withTempBuffer_sound hn hbody hfirst hevaluated hu hlist hinside, rfl⟩
  | dolist hstep hset hname hhead hlist hbody =>
    exact ⟨dolist_sound hn hstep hset hname hhead hlist hbody, rfl⟩

end Idiom

namespace Node

/-- Recognising idioms keeps the node as sound as it is. The node above sees no difference. -/
def KeepsSound (node : Node) : Prop :=
  ∀ quiet, node.Sound quiet → node.idiomatic.Sound quiet ∧ node.idiomatic.role = node.role

theorem keepsSound_tree {kind : Nonterminal} {children : List Node} {idiom : Option Idiom}
    (h : ∀ c ∈ children, c.KeepsSound) : (tree kind children idiom).KeepsSound := by
  intro quiet hsound
  obtain ⟨hfits, hstart, hs⟩ := sound_tree.1 hsound
  have hroles : (children.map Node.idiomatic).map role = children.map role := by
    rw [List.map_map]
    exact List.map_congr_left fun c hc => (h c hc quiet (hs c hc)).2
  -- the start value of a loop stays quiet, although the loop itself may not be
  have hstart' : (tree kind (children.map Node.idiomatic) none).startsQuiet = true := by
    refine startsQuiet_tree.2 fun hkind start' hhead => ?_
    rw [List.head?_map, Option.map_eq_some_iff] at hhead
    obtain ⟨start, hhead, rfl⟩ := hhead
    have hmem := List.mem_of_mem_head? hhead
    have hquiet := startsQuiet_tree.1 hstart hkind start hhead
    have hloud := hs start hmem
    exact (h start hmem True ⟨hloud.shaped, hloud.loops, fun _ => hquiet⟩).1.isQuiet trivial
  have hall : ∀ c ∈ children.map Node.idiomatic, c.Sound quiet := by
    simpa using fun c hc => (h c hc quiet (hs c hc)).1
  have hplain : (tree kind (children.map Node.idiomatic) none).Sound quiet :=
    sound_tree.2 ⟨by rwa [hroles], hstart', hall⟩
  rw [Node.idiomatic, idiomaticAll_eq_map]
  cases hfound : Idiom.recognize? kind (children.map Node.idiomatic) with
  | none =>
    refine ⟨sound_tree.2 ⟨hplain.fits, startsQuiet_tree.2 (startsQuiet_tree.1 hstart'), hall⟩, rfl⟩
  | some found => exact Idiom.recognize?_sound hplain hfound

mutual

theorem keepsSound : ∀ node : Node, node.KeepsSound
  | token _ => fun _ h => ⟨h, rfl⟩
  | tree _ children _ => keepsSound_tree (keepsSoundAll children)

theorem keepsSoundAll : ∀ nodes : List Node, ∀ n ∈ nodes, n.KeepsSound
  | [] => by simp
  | node :: rest => by simpa using ⟨keepsSound node, keepsSoundAll rest⟩

end

end Node

end ElispLift

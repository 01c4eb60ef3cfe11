import ElispLift.Instruction

/-!
# Nonterminals

The tags of syntax trees: the nonterminals of the grammar, one for each family of counted
operations, and the tags that only recognised idioms have.
-/

namespace ElispLift

inductive Nonterminal where
  | fnBody | body | bodyStacked | exprs | optExprs | exprStmt | expr | exprStacked | exprReturn
  | stackedReturn | optReturn | optDiscard | optLabel | optComeFrom | optComeFroms | comeFroms
  | nameExpr | nullaryExpr | unaryExpr | unaryExprStacked | binaryExpr | binaryExprStacked
  | ternaryExpr | ternaryExprStacked | nullaryOp | unaryOp | binaryOp | ternaryOp | popExpr
  | setqForm | setqFormDup | setqFormStacked | setExpr | setExprStacked | setBuffer | ifForm
  | ifElseForm | whenMacro | andForm | orForm | condForm | clause | condition | endClause
  | labeledClause | labeledClauses | labeledFinalClause | whileForm1 | whileForm2 | dolistMacro
  | dolistMacroResult | dolistList | dolistInitVar | dolistLoopIterSet | dolistLoopIterSetStacking
  | unwindProtectForm | letFormStar | varlist | varbind | letFormStacked | varlistStacked
  | varlistStackedInner | saveExcursionForm | saveRestrictionForm | saveCurrentBufferForm
  | withCurrentBufferMacro | withCurrentBufferSafeMacro | withTempBufferMacro | dolist | defvar
  | defvarDoc | defconst | defconstDoc | kbd
  | counted (family : Family)
deriving Repr

namespace Nonterminal

def name : Nonterminal → String
  | fnBody => "fn_body"
  | body => "body"
  | bodyStacked => "body_stacked"
  | exprs => "exprs"
  | optExprs => "opt_exprs"
  | exprStmt => "expr_stmt"
  | expr => "expr"
  | exprStacked => "expr_stacked"
  | exprReturn => "expr_return"
  | stackedReturn => "stacked_return"
  | optReturn => "opt_return"
  | optDiscard => "opt_discard"
  | optLabel => "opt_label"
  | optComeFrom => "opt_come_from"
  | optComeFroms => "opt_come_froms"
  | comeFroms => "come_froms"
  | nameExpr => "name_expr"
  | nullaryExpr => "nullary_expr"
  | unaryExpr => "unary_expr"
  | unaryExprStacked => "unary_expr_stacked"
  | binaryExpr => "binary_expr"
  | binaryExprStacked => "binary_expr_stacked"
  | ternaryExpr => "ternary_expr"
  | ternaryExprStacked => "ternary_expr_stacked"
  | nullaryOp => "nullary_op"
  | unaryOp => "unary_op"
  | binaryOp => "binary_op"
  | ternaryOp => "ternary_op"
  | popExpr => "pop_expr"
  | setqForm => "setq_form"
  | setqFormDup => "setq_form_dup"
  | setqFormStacked => "setq_form_stacked"
  | setExpr => "set_expr"
  | setExprStacked => "set_expr_stacked"
  | setBuffer => "set_buffer"
  | ifForm => "if_form"
  | ifElseForm => "if_else_form"
  | whenMacro => "when_macro"
  | andForm => "and_form"
  | orForm => "or_form"
  | condForm => "cond_form"
  | clause => "clause"
  | condition => "condition"
  | endClause => "end_clause"
  | labeledClause => "labeled_clause"
  | labeledClauses => "labeled_clauses"
  | labeledFinalClause => "labeled_final_clause"
  | whileForm1 => "while_form1"
  | whileForm2 => "while_form2"
  | dolistMacro => "dolist_macro"
  | dolistMacroResult => "dolist_macro_result"
  | dolistList => "dolist_list"
  | dolistInitVar => "dolist_init_var"
  | dolistLoopIterSet => "dolist_loop_iter_set"
  | dolistLoopIterSetStacking => "dolist_loop_iter_set_stacking"
  | unwindProtectForm => "unwind_protect_form"
  | letFormStar => "let_form_star"
  | varlist => "varlist"
  | varbind => "varbind"
  | letFormStacked => "let_form_stacked"
  | varlistStacked => "varlist_stacked"
  | varlistStackedInner => "varlist_stacked_inner"
  | saveExcursionForm => "save_excursion_form"
  | saveRestrictionForm => "save_restriction_form"
  | saveCurrentBufferForm => "save_current_buffer_form"
  | withCurrentBufferMacro => "with_current_buffer_macro"
  | withCurrentBufferSafeMacro => "with_current_buffer_safe_macro"
  | withTempBufferMacro => "with_temp_buffer_macro"
  | dolist => "dolist"
  | defvar => "defvar"
  | defvarDoc => "defvar_doc"
  | defconst => "defconst"
  | defconstDoc => "defconst_doc"
  | kbd => "kbd"
  | counted f => f.stem ++ "_exprn"

def all : List Nonterminal :=
  [.fnBody, .body, .bodyStacked, .exprs, .optExprs, .exprStmt, .expr, .exprStacked, .exprReturn,
   .stackedReturn, .optReturn, .optDiscard, .optLabel, .optComeFrom, .optComeFroms, .comeFroms,
   .nameExpr, .nullaryExpr, .unaryExpr, .unaryExprStacked, .binaryExpr, .binaryExprStacked,
   .ternaryExpr, .ternaryExprStacked, .nullaryOp, .unaryOp, .binaryOp, .ternaryOp, .popExpr,
   .setqForm, .setqFormDup, .setqFormStacked, .setExpr, .setExprStacked, .setBuffer, .ifForm,
   .ifElseForm, .whenMacro, .andForm, .orForm, .condForm, .clause, .condition, .endClause,
   .labeledClause, .labeledClauses, .labeledFinalClause, .whileForm1, .whileForm2, .dolistMacro,
   .dolistMacroResult, .dolistList, .dolistInitVar, .dolistLoopIterSet, .dolistLoopIterSetStacking,
   .unwindProtectForm, .letFormStar, .varlist, .varbind, .letFormStacked, .varlistStacked,
   .varlistStackedInner, .saveExcursionForm, .saveRestrictionForm, .saveCurrentBufferForm,
   .withCurrentBufferMacro, .withCurrentBufferSafeMacro, .withTempBufferMacro, .dolist, .defvar,
   .defvarDoc, .defconst, .defconstDoc, .kbd] ++
    Family.all.map counted

/-- The place of a nonterminal among all. -/
def index : Nonterminal → Nat
  | counted f => (counted f).ctorIdx + f.ctorIdx
  | k => k.ctorIdx

theorem all_index (k : Nonterminal) : all[k.index]? = some k := by
  cases k with
  | counted f => cases f <;> rfl
  | _ => rfl

theorem index_injective {k l : Nonterminal} (h : k.index = l.index) : k = l :=
  Option.some.inj ((all_index k).symm.trans (h ▸ all_index l))

theorem mem_all (k : Nonterminal) : k ∈ all := List.mem_of_getElem? (all_index k)

theorem index_lt (k : Nonterminal) : k.index < all.length :=
  (List.getElem?_eq_some_iff.1 (all_index k)).1

instance : DecidableEq Nonterminal := fun k l =>
  if h : k.index = l.index then isTrue (index_injective h) else isFalse fun e => h (e ▸ rfl)

def ofName? (s : String) : Option Nonterminal := all.find? (·.name == s)

/-- Nonterminals for lists of any length, whose nodes hold all items side by side. -/
def isCollected : Nonterminal → Bool
  | exprs | optExprs | varlist | labeledClauses | comeFroms => true
  | _ => false

instance : ToString Nonterminal := ⟨name⟩

end Nonterminal

end ElispLift

import ElispLift.Grammar.Rule

/-!
# The grammar of byte code

The shapes in which the byte compiler lays out Lisp forms. Rules for the same nonterminal are tried
in the order written, so the order decides between readings of the same instructions.
-/

namespace ElispLift.Grammar

open Rule

/-- The terminal of an operation. -/
def t (op : Opcode) : Symbol := .terminal (.fixed op)

def n (kind : Nonterminal) : Symbol := .nonterminal kind

/-- The terminal of an operation with a count. -/
def counted (family : Family) (count : Nat) : Symbol := .terminal (.counted family count)

def bodies : List Rule :=
  alternatives .fnBody
      [[n .body, n .optLabel, n .optReturn],
        [n .body, n .optComeFroms, n .optLabel, n .stackedReturn],
        [n .body, n .optComeFroms, n .optLabel, n .exprReturn]] ++
    alternatives .exprStmt [[n .expr, n .optDiscard]] ++
    oneOrMore .exprs (n .exprStmt) ++
    zeroOrMore .optExprs (n .exprStmt) ++
    alternatives .body [[n .exprs]] ++
    alternatives .bodyStacked [[n .exprStacked, n .optDiscard, n .exprs], [n .exprStacked]]

/-- Forms come before applications, so that a form is found where both fit. -/
def expressions : List Rule :=
  alternatives .exprStacked
      [[t .dup], [n .unaryExprStacked], [n .binaryExprStacked], [n .ternaryExprStacked],
        [n .setExprStacked]] ++
    alternatives .expr
      [[n .ifElseForm], [n .ifForm], [n .whenMacro], [n .condForm], [n .orForm], [n .andForm],
        [n .whileForm1], [n .whileForm2], [n .dolistMacro], [n .dolistMacroResult],
        [n .unwindProtectForm], [n .letFormStar], [n .letFormStacked], [n .saveExcursionForm],
        [n .saveRestrictionForm], [n .withCurrentBufferSafeMacro], [n .withCurrentBufferMacro],
        [n .saveCurrentBufferForm], [n .setBuffer], [n .setqForm], [n .setqFormDup],
        [n .setqFormStacked], [n .setExpr], [n .popExpr], [n .binaryExpr],
        [n .binaryExprStacked], [n .ternaryExpr], [n .unaryExpr], [n .unaryExprStacked],
        [n .nullaryExpr], [n .nameExpr], [t .varref], [t .stackRef], [t .dup]]

def saves : List Rule :=
  alternatives .saveExcursionForm [[t .saveExcursion, n .body, t .unbind]] ++
    alternatives .saveRestrictionForm [[t .saveRestriction, n .body, t .unbind]] ++
    alternatives .saveCurrentBufferForm [[t .saveCurrentBuffer, n .body, t .unbind]] ++
    alternatives .withCurrentBufferMacro
      [[t .saveCurrentBuffer, t .varref, t .setBuffer, t .discard, n .exprs, t .unbind]] ++
    alternatives .withCurrentBufferSafeMacro
      [[t .varref, t .not, t .gotoIfNotNilElsePop, t .constant, t .varref, counted .call 1,
         t .comeFrom, t .label, t .stackAccess, t .not, t .gotoIfNilElsePop,
         n .withCurrentBufferMacro, n .optComeFrom, n .optLabel]] ++
    alternatives .setBuffer [[n .expr, t .setBuffer]]

def stackedApplications : List Rule :=
  alternatives .unaryExprStacked [[t .stackAccess, n .unaryOp], [n .unaryOp]] ++
    alternatives .binaryExprStacked
      [[n .expr, t .stackAccess, n .binaryOp], [n .exprStacked, n .binaryOp],
        [t .stackAccess, n .expr, n .binaryOp]] ++
    alternatives .ternaryExprStacked [[t .stackAccess, n .expr, n .expr, n .ternaryOp]]

/-- The conditional jump is the second symbol of each rule. -/
def conditionals : List Rule :=
  alternatives .ifElseForm
      [[n .expr, t .gotoIfNil, n .body, t .goto, n .comeFroms, t .label, n .body,
         n .comeFroms, t .label]] ++
    alternatives .ifForm
      [[n .expr, t .gotoIfNil, n .expr, n .optComeFrom, n .optLabel],
        [n .expr, t .gotoIfNotNil, n .expr, n .optComeFrom, n .optLabel]] ++
    alternatives .whenMacro
      [[n .expr, t .gotoIfNil, n .body, n .comeFroms, t .label],
        [n .expr, t .gotoIfNilElsePop, n .body, n .comeFroms, t .label]] ++
    alternatives .orForm
      [[n .expr, t .gotoIfNotNilElsePop, n .expr, n .optComeFrom, n .optLabel],
        [n .expr, t .gotoIfNotNil, n .expr, t .gotoIfNilElsePop, t .comeFrom, t .label]] ++
    alternatives .andForm [[n .expr, t .gotoIfNilElsePop, n .expr, n .optComeFrom, n .optLabel]]

def loops : List Rule :=
  alternatives .whileForm1
      [[n .expr, t .comeFrom, t .label, n .expr, t .gotoIfNilElsePop, n .body, t .goto,
         t .comeFrom, t .label]] ++
    alternatives .whileForm2
      [[t .comeFrom, t .label, n .expr, t .gotoIfNilElsePop, n .body, t .goto, t .comeFrom,
         t .label]] ++
    alternatives .unwindProtectForm [[n .expr, t .unwindProtect, n .optExprs, t .unbind]] ++
    alternatives .dolistMacro
      [[n .dolistList, n .dolistInitVar, t .gotoIfNilElsePop, t .comeFrom, t .label,
         n .dolistLoopIterSet, n .body, t .dup, t .varset, t .gotoIfNotNil, t .constant,
         t .comeFrom, t .label, t .unbind],
        [n .dolistList, n .dolistInitVar, t .gotoIfNil, t .comeFrom, t .label,
         n .dolistLoopIterSet, n .body, t .dup, t .varset, t .gotoIfNotNil, t .comeFrom,
         t .label, t .unbind],
        [n .dolistList, n .dolistInitVar, t .gotoIfNilElsePop, t .comeFrom, t .label,
         n .dolistLoopIterSetStacking, n .bodyStacked, t .dup, t .varset, t .gotoIfNotNil,
         t .constant, t .comeFrom, t .label, t .unbind]] ++
    alternatives .dolistMacroResult
      [[n .dolistList, n .dolistInitVar, t .gotoIfNil, t .comeFrom, t .label,
         n .dolistLoopIterSet, n .body, t .varref, t .cdr, t .dup, t .varset, t .gotoIfNotNil,
         t .comeFrom, t .label, t .constant, t .varset, n .expr, t .unbind]] ++
    alternatives .dolistLoopIterSet [[t .varref, t .car, t .varset]] ++
    alternatives .dolistLoopIterSetStacking [[t .varref, t .car, t .dup, t .varset]] ++
    alternatives .dolistInitVar [[n .varbind, t .dup, t .varbind]] ++
    alternatives .dolistList [[n .expr]]

def applications : List Rule :=
  alternatives .nameExpr [[t .constant]] ++
    alternatives .nullaryExpr [[n .nullaryOp]] ++
    alternatives .unaryExpr [[n .expr, n .unaryOp], [t .stackAccess, n .unaryOp]] ++
    alternatives .binaryExpr [[n .expr, n .expr, n .binaryOp]] ++
    alternatives .ternaryExpr [[n .expr, n .expr, n .expr, n .ternaryOp]] ++
    alternatives .popExpr [[t .varref, t .dup, t .cdr, t .varset, t .carSafe]]

def assignments : List Rule :=
  alternatives .setqForm [[n .expr, t .varset]] ++
    alternatives .setqFormDup [[n .expr, t .dup, t .varset]] ++
    alternatives .setqFormStacked [[n .exprStacked, t .dup, t .varset]] ++
    alternatives .setExpr [[n .expr, n .expr, t .set], [n .expr, n .expr, t .stackSet, t .set]] ++
    alternatives .setExprStacked [[n .exprStacked, n .expr, t .set]]

def clauses : List Rule :=
  alternatives .condForm
      [[n .clause, n .labeledClauses, n .comeFroms, t .label],
        [n .clause, n .labeledClauses, n .labeledFinalClause, t .label],
        [n .clause, n .labeledFinalClause, t .label], [n .clause, n .labeledClauses]] ++
    oneOrMore .labeledClauses (n .labeledClause) ++
    alternatives .labeledClause [[t .label, n .clause]] ++
    alternatives .labeledFinalClause [[t .label, n .condition, n .body, n .comeFroms]] ++
    alternatives .condition
      [[n .expr, t .gotoIfNil, n .optComeFrom, n .optLabel],
        [n .expr, t .gotoIfNilElsePop, n .optComeFrom, n .optLabel]] ++
    alternatives .clause
      [[n .condition, n .body, n .endClause], [n .optLabel, n .body, n .endClause]] ++
    alternatives .endClause
      [[t .goto, t .comeFrom], [t .ret, t .comeFrom], [t .ret], [n .stackedReturn]]

def bindings : List Rule :=
  alternatives .letFormStar [[n .varlist, n .body, t .unbind], [n .varlist, n .body]] ++
    oneOrMore .varlist (n .varbind) ++
    alternatives .varbind [[n .expr, t .varbind], [n .expr, t .stackAccess, t .varbind]] ++
    alternatives .letFormStacked [[n .varlistStacked, n .bodyStacked, t .unbind]] ++
    alternatives .varlistStacked [[n .expr, n .varlistStackedInner, t .dup, t .varbind]] ++
    alternatives .varlistStackedInner [[n .expr, n .varlistStackedInner, t .varbind], []]

def options : List Rule :=
  oneOrMore .comeFroms (t .comeFrom) ++
    atMostOne .optComeFroms (n .comeFroms) ++
    atMostOne .optComeFrom (t .comeFrom) ++
    atMostOne .optLabel (t .label) ++
    atMostOne .optDiscard (t .discard) ++
    atMostOne .optReturn (t .ret) ++
    alternatives .stackedReturn [[t .stackAccess, t .ret]] ++
    alternatives .exprReturn [[n .expr, t .ret]]

/-- The nonterminal of the operations that apply a function to a number of arguments. -/
def operatorKind? : OpClass → Option Nonterminal
  | .nullary => some .nullaryOp
  | .unary => some .unaryOp
  | .binary => some .binaryOp
  | .ternary => some .ternaryOp
  | _ => none

def operators : List Rule :=
  Opcode.all.filterMap fun op => (operatorKind? op.opClass).map fun kind => ⟨kind, [t op]⟩

/-- The rules that every routine is read with. -/
def base : List Rule :=
  bodies ++ expressions ++ saves ++ stackedApplications ++ conditionals ++
    loops ++ applications ++ assignments ++ clauses ++ bindings ++ options ++
    operators

end ElispLift.Grammar

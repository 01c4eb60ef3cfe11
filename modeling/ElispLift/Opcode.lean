/-!
# Byte-code operations

The operations of the machine, one row each: the mnemonic of listings, the effect on the stack,
the class, and the Lisp function that the operation applies. The last eight operations never stand
in a program; later stages put them among its instructions.
-/

namespace ElispLift

/-- What an instruction takes from the stack and leaves on it. A branch that keeps the value on one
side only has an effect for falling through and one for jumping, as pairs of pops and pushes. -/
inductive Effect where
  | fixed (pops pushes : Nat)
  | branch (fall taken : Nat × Nat)
deriving DecidableEq, Repr

namespace Effect

/-- The change of the stack's height when execution falls through. -/
def net : Effect → Int
  | fixed pops pushes => pushes - pops
  | branch (pops, pushes) _ => pushes - pops

/-- The change of the stack's height when the jump is taken, if there is one. -/
def netTaken? : Effect → Option Int
  | fixed _ _ => none
  | branch _ (pops, pushes) => some (pushes - pops)

def isBranch : Effect → Bool
  | fixed _ _ => false
  | branch _ _ => true

end Effect

inductive OpClass where
  | nullary | unary | binary | ternary | jump | jumpCond | noFollow | other | pseudo
deriving DecidableEq, Repr

inductive Opcode where
  | constant | varref | varset | varbind | unbind | dup | discard | stackRef | stackSet | set
  | setBuffer | saveExcursion | saveCurrentBuffer | saveRestriction | saveWindowExcursion
  | unwindProtect | goto | gotoIfNil | gotoIfNotNil | gotoIfNilElsePop | gotoIfNotNilElsePop | ret
  | point | pointMax | pointMin | followingChar | precedingChar | currentColumn | currentBuffer
  | eolp | eobp | bolp | bobp | widen | add1 | sub1 | negate | car | cdr | carSafe | cdrSafe
  | consp | listp | nlistp | not | integerp | numberp | natnump | stringp | symbolp | keywordp
  | vectorp | sequencep | recordp | subrp | threadp | userPtrp | subrArity | typeOf | length
  | nreverse | symbolValue | symbolFunction | symbolName | symbolPlist | gotoChar | insert
  | forwardChar | forwardLine | endOfLine | charSyntax | upcase | downcase | interactiveP | plus
  | diff | mult | quo | rem | max | min | eqlsign | gtr | lss | geq | leq | eq | equal | stringEq
  | stringLt | cons | nconc | elt | aref | nth | nthcdr | member | memq | assq | get | fset
  | setcar | setcdr | substring | aset | label | comeFrom | stackAccess | neqlsign | caar | cadr
  | cdar | cddr
deriving DecidableEq, Repr

namespace Opcode

structure Row where
  mnemonic : String
  effect : Effect
  opClass : OpClass
  /-- The Lisp function applied, or nothing. -/
  lisp : String

/-- An operation that applies a function of `n` arguments. -/
def apply (opClass : OpClass) (n : Nat) (mnemonic lisp : String) : Row :=
  ⟨mnemonic, .fixed n 1, opClass, lisp⟩

def row : Opcode → Row
  | .constant => ⟨"constant", .fixed 0 1, .other, ""⟩
  | .varref => ⟨"varref", .fixed 0 1, .other, ""⟩
  | .varset => ⟨"varset", .fixed 1 0, .other, ""⟩
  | .varbind => ⟨"varbind", .fixed 1 0, .other, ""⟩
  | .unbind => ⟨"unbind", .fixed 0 0, .other, ""⟩
  | .dup => ⟨"dup", .fixed 0 1, .other, ""⟩
  | .discard => ⟨"discard", .fixed 1 0, .other, ""⟩
  | .stackRef => ⟨"stack-ref", .fixed 0 1, .other, "stack-ref"⟩
  | .stackSet => ⟨"stack-set", .fixed 1 0, .other, ""⟩
  | .set => ⟨"set", .fixed 2 1, .other, "set"⟩
  | .setBuffer => ⟨"set-buffer", .fixed 1 1, .other, "set-buffer"⟩
  | .saveExcursion => ⟨"save-excursion", .fixed 0 0, .other, "save-excursion"⟩
  | .saveCurrentBuffer => ⟨"save-current-buffer", .fixed 0 0, .other, "save-current-buffer"⟩
  | .saveRestriction => ⟨"save-restriction", .fixed 0 0, .other, "save-restriction"⟩
  | .saveWindowExcursion => ⟨"save-window-excursion", .fixed 1 0, .other, "save-window-excursion"⟩
  | .unwindProtect => ⟨"unwind-protect", .fixed 1 0, .other, "unwind-protect"⟩
  | .goto => ⟨"goto", .fixed 0 0, .jump, ""⟩
  | .gotoIfNil => ⟨"goto-if-nil", .fixed 1 0, .jumpCond, ""⟩
  | .gotoIfNotNil => ⟨"goto-if-not-nil", .fixed 1 0, .jumpCond, ""⟩
  | .gotoIfNilElsePop => ⟨"goto-if-nil-else-pop", .branch (1, 0) (1, 1), .jumpCond, ""⟩
  | .gotoIfNotNilElsePop => ⟨"goto-if-not-nil-else-pop", .branch (1, 0) (1, 1), .jumpCond, ""⟩
  | .ret => ⟨"return", .fixed 1 0, .noFollow, ""⟩
  | .point => apply .nullary 0 "point" "point"
  | .pointMax => apply .nullary 0 "point-max" "point-max"
  | .pointMin => apply .nullary 0 "point-min" "point-min"
  | .followingChar => apply .nullary 0 "following-char" "following-char"
  | .precedingChar => apply .nullary 0 "preceding-char" "preceding-char"
  | .currentColumn => apply .nullary 0 "current-column" "current-column"
  | .currentBuffer => apply .nullary 0 "current-buffer" "current-buffer"
  | .eolp => apply .nullary 0 "eolp" "eolp"
  | .eobp => apply .nullary 0 "eobp" "eobp"
  | .bolp => apply .nullary 0 "bolp" "bolp"
  | .bobp => apply .nullary 0 "bobp" "bobp"
  | .widen => apply .nullary 0 "widen" "widen"
  | .add1 => apply .unary 1 "add1" "1+"
  | .sub1 => apply .unary 1 "sub1" "1-"
  | .negate => apply .unary 1 "negate" "-"
  | .car => apply .unary 1 "car" "car"
  | .cdr => apply .unary 1 "cdr" "cdr"
  | .carSafe => apply .unary 1 "car-safe" "car-safe"
  | .cdrSafe => apply .unary 1 "cdr-safe" "cdr-safe"
  | .consp => apply .unary 1 "consp" "consp"
  | .listp => apply .unary 1 "listp" "listp"
  | .nlistp => apply .unary 1 "nlistp" "nlistp"
  | .not => apply .unary 1 "not" "not"
  | .integerp => apply .unary 1 "integerp" "integerp"
  | .numberp => apply .unary 1 "numberp" "numberp"
  | .natnump => apply .unary 1 "natnump" "natnump"
  | .stringp => apply .unary 1 "stringp" "stringp"
  | .symbolp => apply .unary 1 "symbolp" "symbolp"
  | .keywordp => apply .unary 1 "keywordp" "keywordp"
  | .vectorp => apply .unary 1 "vectorp" "vectorp"
  | .sequencep => apply .unary 1 "sequencep" "sequencep"
  | .recordp => apply .unary 1 "recordp" "recordp"
  | .subrp => apply .unary 1 "subrp" "subrp"
  | .threadp => apply .unary 1 "threadp" "threadp"
  | .userPtrp => apply .unary 1 "user-ptrp" "user-ptrp"
  | .subrArity => apply .unary 1 "subr-arity" "subr-arity"
  | .typeOf => apply .unary 1 "type-of" "type-of"
  | .length => apply .unary 1 "length" "length"
  | .nreverse => apply .unary 1 "nreverse" "nreverse"
  | .symbolValue => apply .unary 1 "symbol-value" "symbol-value"
  | .symbolFunction => apply .unary 1 "symbol-function" "symbol-function"
  | .symbolName => apply .unary 1 "symbol-name" "symbol-name"
  | .symbolPlist => apply .unary 1 "symbol-plist" "symbol-plist"
  | .gotoChar => apply .unary 1 "goto-char" "goto-char"
  | .insert => apply .unary 1 "insert" "insert"
  | .forwardChar => apply .unary 1 "forward-char" "forward-char"
  | .forwardLine => apply .unary 1 "forward-line" "forward-line"
  | .endOfLine => apply .unary 1 "end-of-line" "end-of-line"
  | .charSyntax => apply .unary 1 "char-syntax" "char-syntax"
  | .upcase => apply .unary 1 "upcase" "upcase"
  | .downcase => apply .unary 1 "downcase" "downcase"
  | .interactiveP => apply .nullary 0 "interactive-p" "interactive-p"
  | .plus => apply .binary 2 "plus" "+"
  | .diff => apply .binary 2 "diff" "-"
  | .mult => apply .binary 2 "mult" "*"
  | .quo => apply .binary 2 "quo" "/"
  | .rem => apply .binary 2 "rem" "%"
  | .max => apply .binary 2 "max" "max"
  | .min => apply .binary 2 "min" "min"
  | .eqlsign => apply .binary 2 "eqlsign" "="
  | .gtr => apply .binary 2 "gtr" ">"
  | .lss => apply .binary 2 "lss" "<"
  | .geq => apply .binary 2 "geq" ">="
  | .leq => apply .binary 2 "leq" "<="
  | .eq => apply .binary 2 "eq" "eq"
  | .equal => apply .binary 2 "equal" "equal"
  | .stringEq => apply .binary 2 "string=" "string="
  | .stringLt => apply .binary 2 "string<" "string<"
  | .cons => apply .binary 2 "cons" "cons"
  | .nconc => apply .binary 2 "nconc" "nconc"
  | .elt => apply .binary 2 "elt" "elt"
  | .aref => apply .binary 2 "aref" "aref"
  | .nth => apply .binary 2 "nth" "nth"
  | .nthcdr => apply .binary 2 "nthcdr" "nthcdr"
  | .member => apply .binary 2 "member" "member"
  | .memq => apply .binary 2 "memq" "memq"
  | .assq => apply .binary 2 "assq" "assq"
  | .get => apply .binary 2 "get" "get"
  | .fset => apply .binary 2 "fset" "fset"
  | .setcar => apply .binary 2 "setcar" "setcar"
  | .setcdr => apply .binary 2 "setcdr" "setcdr"
  | .substring => apply .ternary 3 "substring" "substring"
  | .aset => apply .ternary 3 "aset" "aset"
  | .label => ⟨"label", .fixed 0 0, .pseudo, ""⟩
  | .comeFrom => ⟨"come_from", .fixed 0 0, .pseudo, ""⟩
  | .stackAccess => ⟨"stack-access", .fixed 0 0, .pseudo, ""⟩
  | .neqlsign => ⟨"neqlsign", .fixed 0 0, .pseudo, "/="⟩
  | .caar => ⟨"caar", .fixed 0 0, .pseudo, "caar"⟩
  | .cadr => ⟨"cadr", .fixed 0 0, .pseudo, "cadr"⟩
  | .cdar => ⟨"cdar", .fixed 0 0, .pseudo, "cdar"⟩
  | .cddr => ⟨"cddr", .fixed 0 0, .pseudo, "cddr"⟩

/-- All operations, in the order in which grammar rules are made for them. -/
def all : List Opcode :=
  [.constant, .varref, .varset, .varbind, .unbind, .dup, .discard, .stackRef, .stackSet, .set,
   .setBuffer, .saveExcursion, .saveCurrentBuffer, .saveRestriction, .saveWindowExcursion,
   .unwindProtect, .goto, .gotoIfNil, .gotoIfNotNil, .gotoIfNilElsePop, .gotoIfNotNilElsePop,
   .ret, .point, .pointMax, .pointMin, .followingChar, .precedingChar, .currentColumn,
   .currentBuffer, .eolp, .eobp, .bolp, .bobp, .widen, .add1, .sub1, .negate, .car, .cdr,
   .carSafe, .cdrSafe, .consp, .listp, .nlistp, .not, .integerp, .numberp, .natnump, .stringp,
   .symbolp, .keywordp, .vectorp, .sequencep, .recordp, .subrp, .threadp, .userPtrp, .subrArity,
   .typeOf, .length, .nreverse, .symbolValue, .symbolFunction, .symbolName, .symbolPlist,
   .gotoChar, .insert, .forwardChar, .forwardLine, .endOfLine, .charSyntax, .upcase, .downcase,
   .interactiveP, .plus, .diff, .mult, .quo, .rem, .max, .min, .eqlsign, .gtr, .lss, .geq, .leq,
   .eq, .equal, .stringEq, .stringLt, .cons, .nconc, .elt, .aref, .nth, .nthcdr, .member, .memq,
   .assq, .get, .fset, .setcar, .setcdr, .substring, .aset, .label, .comeFrom, .stackAccess,
   .neqlsign, .caar, .cadr, .cdar, .cddr]

theorem mem_all (op : Opcode) : op ∈ all := by
  cases op <;> decide

def mnemonic (op : Opcode) : String := op.row.mnemonic

def effect (op : Opcode) : Effect := op.row.effect

def opClass (op : Opcode) : OpClass := op.row.opClass

def lisp (op : Opcode) : String := op.row.lisp

/-- The name in the grammar is the mnemonic in capitals. -/
def name (op : Opcode) : String := String.ofList (op.mnemonic.toList.map Char.toUpper)

/-- The name in one capitalised word: each part of the mnemonic capitalised, with `=` and `<`
written out. -/
def ident (op : Opcode) : String :=
  String.ofList (go true op.mnemonic.toList)
where
  go : Bool → List Char → List Char
    | _, [] => []
    | start, c :: cs =>
      if c == '-' || c == '_' then go true cs
      else if c == '=' then 'E' :: 'q' :: go false cs
      else if c == '<' then 'L' :: 't' :: go false cs
      else (if start then c.toUpper else c) :: go false cs

def ofMnemonic? (s : String) : Option Opcode := all.find? (·.mnemonic == s)

def ofName? (s : String) : Option Opcode := all.find? (·.name == s)

theorem mnemonic_of_ofMnemonic? {s : String} {op : Opcode} (h : ofMnemonic? s = some op) :
    op.mnemonic = s := by
  simpa using List.find?_some h

def isJump (op : Opcode) : Bool := op.opClass = .jump || op.opClass = .jumpCond

end Opcode

end ElispLift

import Mathlib.Logic.Function.Basic
import ElispLift.Proofs.Let.Form

/-!
# Scopes

What operations compute is left open: a meaning gives constants and operations their values. With a
meaning, an expression has a value where variables have values. Machine code computes the same value
on a stack, and changes the values of variables where it binds them. A `let` computes all its values
where none of its variables is bound yet, and a `let*` each of them behind the bindings before it.
-/

namespace ElispLift.Let

open StraightLine

/-- What constants are, and what operations make of their operands. -/
structure Meaning (V : Type) where
  constant : Operand → V
  apply : OpKind → List V → V

/-- The values on the stack, the top first, and those of variables. -/
structure Machine (V : Type) where
  stack : List V
  env : String → V

variable {V : Type} {M : Meaning V} {s s' : Machine V} {env outer : String → V}
  {is js : List Instruction} {i : Instruction} {b : Binding} {bs : List Binding}

/-- The values that an operation takes from the stack to compute one of them. -/
def operandCount? : OpKind → Option Nat
  | .fixed op => arity? op.opClass
  | .counted family count => some (family.operands count)

namespace Machine

def push (v : V) (s : Machine V) : Machine V := { s with stack := v :: s.stack }

/-- Give the variable the value on top of the stack. -/
def bind? (name : String) (s : Machine V) : Option (Machine V) :=
  match s.stack with
  | v :: rest => some ⟨rest, Function.update s.env name v⟩
  | [] => none

end Machine

namespace Meaning

/-- The instruction, if it computes a value or binds one. Markers do nothing. -/
def step (M : Meaning V) (i : Instruction) (s : Machine V) : Option (Machine V) :=
  match i.kind with
  | .fixed .constant => some (s.push (M.constant (i.operand.getD (.symbol "nil"))))
  | .fixed .varref => some (s.push (s.env ((i.operand.map Operand.toText).getD "")))
  | .fixed .varbind => s.bind? ((i.operand.map Operand.toText).getD "")
  | .fixed .dup => s.stack.head?.map fun v => s.push v
  | .fixed .stackAccess => some s
  | kind => do
    let count ← operandCount? kind
    if count ≤ s.stack.length then
      some ⟨M.apply kind (s.stack.take count).reverse :: s.stack.drop count, s.env⟩
    else none

def exec (M : Meaning V) : List Instruction → Machine V → Option (Machine V)
  | [], s => some s
  | i :: is, s => (M.step i s).bind (M.exec is)

theorem exec_append (is js : List Instruction) (s : Machine V) :
    M.exec (is ++ js) s = (M.exec is s).bind (M.exec js) := by
  induction is generalizing s with
  | nil => rfl
  | cons i is ih =>
    rw [List.cons_append, exec, exec, Option.bind_assoc]
    exact Option.bind_congr fun s' _ => ih s'

theorem exec_of_append (h : M.exec is s = some s') : M.exec (is ++ js) s = M.exec js s' := by
  rw [exec_append, h]
  rfl

theorem exec_single (i : Instruction) (s : Machine V) : M.exec [i] s = M.step i s :=
  Option.bind_fun_some _

end Meaning

/-! ### Values -/

mutual

/-- The value of an expression where variables have values. -/
def value (M : Meaning V) (env : String → V) : Expr → V
  | .constant operand => M.constant operand
  | .reference name => env name.toText
  | .apply op args => M.apply (.fixed op) (values M env args)
  | .call callee args =>
    M.apply (.counted .call args.length) (M.constant (.symbol callee) :: values M env args)
  | .form family args => M.apply (.counted family args.length) (values M env args)

def values (M : Meaning V) (env : String → V) : List Expr → List V
  | [] => []
  | e :: rest => value M env e :: values M env rest

end

mutual

/-- The variables of an expression. -/
def names : Expr → List String
  | .constant _ => []
  | .reference name => [name.toText]
  | .apply _ args => namesOf args
  | .call _ args => namesOf args
  | .form _ args => namesOf args

def namesOf : List Expr → List String
  | [] => []
  | e :: rest => names e ++ namesOf rest

end

theorem length_values (es : List Expr) : (values M env es).length = es.length := by
  induction es with
  | nil => rfl
  | cons e es ih => rw [values, List.length_cons, List.length_cons, ih]

mutual

/-- An expression has the same value where its variables have. -/
theorem value_congr : ∀ (e : Expr), (∀ name ∈ names e, env name = outer name) →
    value M env e = value M outer e
  | .constant _, _ => rfl
  | .reference name, h => h name.toText (by simp [names])
  | .apply op args, h => by rw [value, value, values_congr args h]
  | .call callee args, h => by rw [value, value, values_congr args h]
  | .form family args, h => by rw [value, value, values_congr args h]

theorem values_congr : ∀ (es : List Expr), (∀ name ∈ namesOf es, env name = outer name) →
    values M env es = values M outer es
  | [], _ => rfl
  | e :: es, h => by
    rw [values, values, value_congr e fun name hname => h name (List.mem_append_left _ hname),
      values_congr es fun name hname => h name (List.mem_append_right _ hname)]

end

/-- An operation takes its operands from the top of the stack, the last one first. -/
theorem step_operation {count : Nat} {args rest : List V}
    (hcount : operandCount? i.kind = some count) (hargs : args.length = count) :
    M.step i ⟨args.reverse ++ rest, env⟩ = some ⟨M.apply i.kind args :: rest, env⟩ := by
  have hlength : args.reverse.length = count := by rw [List.length_reverse, hargs]
  have hle : count ≤ (args.reverse ++ rest).length := by
    rw [List.length_append, hlength]
    exact Nat.le_add_right ..
  unfold Meaning.step
  split
  -- the instructions that are no operations have no operands to take
  case h_6 =>
    subst hlength
    simp only [hcount, Option.bind_eq_bind, Option.bind_some, if_pos hle, List.take_left,
      List.drop_left, List.reverse_reverse]
  all_goals
    rename_i hkind
    rw [hkind] at hcount
    cases hcount

mutual

/-- The code of an expression puts its value onto the stack. -/
theorem exec_expr : ∀ (e : Expr) {is : List Instruction} (stack : List V), e.WellFormed →
    List.Forall₂ Spells is e.code →
      M.exec is ⟨stack, env⟩ = some ⟨value M env e :: stack, env⟩
  | .constant operand, is, stack, _, h => by
    obtain ⟨js, i, rfl, hjs, hi⟩ := spells_snoc (a := []) h
    cases hjs
    rw [List.nil_append, Meaning.exec_single, Meaning.step, hi.1, hi.2 operand rfl]
    rfl
  | .reference name, is, stack, _, h => by
    obtain ⟨js, i, rfl, hjs, hi⟩ := spells_snoc (a := []) h
    cases hjs
    rw [List.nil_append, Meaning.exec_single, Meaning.step, hi.1, hi.2 name rfl]
    rfl
  | .apply op args, is, stack, hwf, h => by
    obtain ⟨js, i, rfl, hjs, hi⟩ := spells_snoc h
    have hcount : operandCount? i.kind = some args.length := by
      rw [hi.1]
      exact hwf.1
    rw [Meaning.exec_of_append (exec_all args stack hwf.2 hjs), Meaning.exec_single,
      step_operation hcount (length_values args), hi.1, value]
  | .call callee args, is, stack, hwf, h => by
    obtain ⟨js, i, rfl, hjs, hi⟩ := spells_snoc h
    obtain ⟨name, ks, hname, hks, rfl⟩ := List.forall₂_cons_right_iff.1 hjs
    have hcount : operandCount? i.kind = some (args.length + 1) := by
      rw [hi.1]
      rfl
    have hcallee : M.step name ⟨stack, env⟩ = some ⟨M.constant (.symbol callee) :: stack, env⟩ := by
      rw [Meaning.step, hname.1, hname.2 _ rfl]
      rfl
    have hargs := exec_all args (M.constant (.symbol callee) :: stack) hwf.2.2 hks
    have hoperands : M.exec (name :: ks) ⟨stack, env⟩ =
        some ⟨(M.constant (.symbol callee) :: values M env args).reverse ++ stack, env⟩ := by
      rw [Meaning.exec, hcallee, Option.bind_some, hargs, List.reverse_cons, List.append_assoc]
      rfl
    rw [Meaning.exec_of_append hoperands, Meaning.exec_single,
      step_operation hcount (congrArg (· + 1) (length_values args)), hi.1, value]
  | .form family args, is, stack, hwf, h => by
    obtain ⟨js, i, rfl, hjs, hi⟩ := spells_snoc h
    have hcount : operandCount? i.kind = some args.length := by
      have hfamily := hwf.1
      rw [hi.1, operandCount?]
      cases family <;> first
        | rfl
        | exact absurd hfamily (by decide)
    rw [Meaning.exec_of_append (exec_all args stack hwf.2.2 hjs), Meaning.exec_single,
      step_operation hcount (length_values args), hi.1, value]

theorem exec_all : ∀ (es : List Expr) {is : List Instruction} (stack : List V),
    Expr.AllWellFormed es → List.Forall₂ Spells is (Expr.codeOf es) →
      M.exec is ⟨stack, env⟩ = some ⟨(values M env es).reverse ++ stack, env⟩
  | [], is, stack, _, h => by
    cases h
    rfl
  | e :: es, is, stack, hwf, h => by
    obtain ⟨js, ks, rfl, hjs, hks⟩ := spells_append h
    rw [Meaning.exec_of_append (exec_expr e stack hwf.1 hjs), exec_all es _ hwf.2 hks, values,
      List.reverse_cons, List.append_assoc]
    rfl

end

/-- A variable gets the value on top of the stack. -/
theorem step_varbind {v : V} {stack : List V}
    (hi : Spells i (.fixed .varbind, some (.symbol b.name))) :
    M.step i ⟨v :: stack, env⟩ = some ⟨stack, Function.update env b.name v⟩ := by
  rw [Meaning.step, hi.1, hi.2 _ rfl]
  rfl

/-! ### Bindings -/

/-- Bind the variable in `inner` to the value that it is given in `env`. -/
def bound (M : Meaning V) (env : String → V) (inner : String → V) (b : Binding) : String → V :=
  Function.update inner b.name (value M env b.value)

/-- Each value is computed behind the bindings before it. -/
def sequentially (M : Meaning V) (env : String → V) (bs : List Binding) : String → V :=
  bs.foldl (fun inner b => bound M inner inner b) env

/-- All values are computed where none of the bindings is made. -/
def atOnce (M : Meaning V) (env : String → V) (bs : List Binding) : String → V :=
  bs.foldl (bound M env) env

/-- No value has a variable that is bound before it. -/
def Independent (bs : List Binding) : Prop := bs.Pairwise fun b c => b.name ∉ names c.value

instance (bs : List Binding) : Decidable (Independent bs) :=
  inferInstanceAs (Decidable (bs.Pairwise _))

/-- No variable is bound twice. -/
def Distinct (bs : List Binding) : Prop := (bs.map (·.name)).Nodup

instance (bs : List Binding) : Decidable (Distinct bs) :=
  inferInstanceAs (Decidable (bs.map _).Nodup)

/-- The values of independent bindings do not depend on when they are computed. -/
theorem sequentially_eq_atOnce (M : Meaning V) (env : String → V) (h : Independent bs) :
    sequentially M env bs = atOnce M env bs := by
  -- the environments differ only in variables that no value to come has
  suffices ∀ inner : String → V, (∀ b ∈ bs, ∀ name ∈ names b.value, inner name = env name) →
      sequentially M inner bs = bs.foldl (bound M env) inner from
    this env fun _ _ _ _ => rfl
  induction h with
  | nil => exact fun _ _ => rfl
  | @cons b bs hb _ ih =>
    intro inner hinner
    obtain ⟨hfirst, hrest⟩ := List.forall_mem_cons.1 hinner
    have hvalue : bound M inner inner b = bound M env inner b :=
      congrArg (Function.update inner b.name) (value_congr b.value hfirst)
    rw [sequentially, List.foldl_cons, List.foldl_cons, hvalue]
    refine ih _ fun c hc name hname => ?_
    have hne : name ≠ b.name := fun he => hb c hc (he ▸ hname)
    rw [bound, Function.update_of_ne hne]
    exact hrest c hc name hname

/-- The order of bindings is of no matter if their variables are distinct. -/
theorem foldl_reverse_bound (M : Meaning V) (env : String → V) (h : Distinct bs) :
    bs.reverse.foldl (bound M env) env = atOnce M env bs := by
  refine (List.reverse_perm bs).foldl_eq' (fun b hb c hc inner => ?_) env
  rcases eq_or_ne b c with rfl | hne
  · rfl
  · have hnames : b.name ≠ c.name := fun he =>
      hne (List.inj_on_of_nodup_map h (List.mem_reverse.1 hb) (List.mem_reverse.1 hc) he)
    exact Function.update_comm hnames ..

/-! ### Headers -/

/-- The word that binds variables, and its bindings. -/
structure Header where
  sequential : Bool
  bindings : List Binding

namespace Header

def word (h : Header) : String := if h.sequential then "let* " else "let "

/-- The header behind the parenthesis that opens the form. The bindings stand below one another. -/
def lisp (h : Header) (column : Nat) : String :=
  h.word ++ "(" ++ ("\n" ++ Text.spaces (column + h.word.utf8ByteSize + 1)).intercalate
    (h.bindings.map (·.lisp)) ++ ")"

/-- The values of variables behind the header. -/
def scope (M : Meaning V) (env : String → V) (h : Header) : String → V :=
  if h.sequential then sequentially M env h.bindings else atOnce M env h.bindings

/-- The header that is written for bindings. More than one of them are bound by `let*`. -/
def ofBindings (bs : List Binding) : Header := ⟨bs.length != 1, bs⟩

/-- The header binds one variable after the other. -/
theorem scope_ofBindings (M : Meaning V) (env : String → V) (bs : List Binding) :
    (ofBindings bs).scope M env = sequentially M env bs := by
  by_cases h : bs.length = 1
  · obtain ⟨b, rfl⟩ := List.length_eq_one_iff.1 h
    rfl
  · simp [scope, ofBindings, h]

end Header

end ElispLift.Let

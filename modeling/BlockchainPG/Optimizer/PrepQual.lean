import BlockchainPG.Lib.Truth

/-! `canonicalize_qual` of `prepqual.c`. -/

namespace BlockchainPG.Optimizer

section

open Lib

/-- A qualification. The arguments of operators and the other boolean expressions are not looked into. -/
inductive Expr (Op Args Arrays Atom : Type) where
  | opExpr (opno : Op) (args : Args)
  | scalarArrayOpExpr (opno : Op) (useOr : Bool) (args : Arrays)
  | other (atom : Atom)
  | andClause (args : List (Expr Op Args Arrays Atom))
  | orClause (args : List (Expr Op Args Arrays Atom))
  | notClause (arg : Expr Op Args Arrays Atom)

variable {Op Args Arrays Atom : Type}

namespace Expr

/-- `and_clause` -/
def isAnd : Expr Op Args Arrays Atom → Bool
  | andClause _ => true
  | _ => false

/-- `or_clause` -/
def isOr : Expr Op Args Arrays Atom → Bool
  | orClause _ => true
  | _ => false

/-- `not_clause` -/
def isNot : Expr Op Args Arrays Atom → Bool
  | notClause _ => true
  | _ => false

theorem induct {motive : Expr Op Args Arrays Atom → Prop} (opExpr : ∀ opno args, motive (.opExpr opno args))
    (scalarArrayOpExpr : ∀ opno useOr args, motive (.scalarArrayOpExpr opno useOr args))
    (other : ∀ atom, motive (.other atom)) (andClause : ∀ args, (∀ arg ∈ args, motive arg) → motive (.andClause args))
    (orClause : ∀ args, (∀ arg ∈ args, motive arg) → motive (.orClause args))
    (notClause : ∀ arg, motive arg → motive (.notClause arg)) : ∀ qual, motive qual := by
  refine @Expr.rec Op Args Arrays Atom motive (fun args => ∀ arg ∈ args, motive arg) opExpr scalarArrayOpExpr other
    andClause orClause notClause (fun _ member => nomatch member) fun head tail first rest => ?_
  exact List.forall_mem_cons.mpr ⟨first, rest⟩

variable [DecidableEq Op] [DecidableEq Args] [DecidableEq Arrays] [DecidableEq Atom]

mutual

def equal : Expr Op Args Arrays Atom → Expr Op Args Arrays Atom → Bool
  | opExpr opno args, opExpr opno' args' => opno = opno' && args = args'
  | scalarArrayOpExpr opno useOr args, scalarArrayOpExpr opno' useOr' args' =>
    opno = opno' && useOr = useOr' && args = args'
  | other atom, other atom' => atom = atom'
  | andClause args, andClause args' => equalArgs args args'
  | orClause args, orClause args' => equalArgs args args'
  | notClause arg, notClause arg' => equal arg arg'
  | _, _ => false

def equalArgs : List (Expr Op Args Arrays Atom) → List (Expr Op Args Arrays Atom) → Bool
  | [], [] => true
  | arg :: rest, arg' :: rest' => equal arg arg' && equalArgs rest rest'
  | _, _ => false

end

theorem equalArgs_iff {args : List (Expr Op Args Arrays Atom)}
    (each : ∀ arg ∈ args, ∀ arg', equal arg arg' = true ↔ arg = arg') (args' : List (Expr Op Args Arrays Atom)) :
    equalArgs args args' = true ↔ args = args' := by
  induction args generalizing args' with
  | nil => cases args' <;> simp [equalArgs]
  | cons arg rest ih =>
    obtain ⟨first, others⟩ := List.forall_mem_cons.mp each
    cases args' with
    | nil => simp [equalArgs]
    | cons arg' rest' => simp [equalArgs, first, ih others]

theorem equal_iff (first second : Expr Op Args Arrays Atom) : equal first second = true ↔ first = second := by
  induction first using induct generalizing second with
  | opExpr opno args => cases second <;> simp [equal]
  | scalarArrayOpExpr opno useOr args => cases second <;> simp [equal, and_assoc]
  | other atom => cases second <;> simp [equal]
  | andClause args ih => cases second <;> simp [equal, equalArgs_iff ih]
  | orClause args ih => cases second <;> simp [equal, equalArgs_iff ih]
  | notClause arg ih => cases second <;> simp [equal, ih]

/-- `list_member` -/
def member (list : List (Expr Op Args Arrays Atom)) (datum : Expr Op Args Arrays Atom) : Bool := list.any (equal datum)

theorem member_iff {list : List (Expr Op Args Arrays Atom)} : member list datum = true ↔ datum ∈ list := by
  simp [member, equal_iff]

end Expr

open Expr

def pullAnds : List (Expr Op Args Arrays Atom) → List (Expr Op Args Arrays Atom)
  | [] => []
  | .andClause args :: rest => pullAnds args ++ pullAnds rest
  | subexpr :: rest => subexpr :: pullAnds rest

def pullOrs : List (Expr Op Args Arrays Atom) → List (Expr Op Args Arrays Atom)
  | [] => []
  | .orClause args :: rest => pullOrs args ++ pullOrs rest
  | subexpr :: rest => subexpr :: pullOrs rest

section Nots

variable (getNegator : Op → Option Op)

mutual

def findNots : Expr Op Args Arrays Atom → Expr Op Args Arrays Atom
  | .andClause args => .andClause (pullAnds (findNotsArgs args))
  | .orClause args => .orClause (pullOrs (findNotsArgs args))
  | .notClause arg => pushNots arg
  | qual => qual

/-- The loops of `find_nots` over the arguments. -/
def findNotsArgs : List (Expr Op Args Arrays Atom) → List (Expr Op Args Arrays Atom)
  | [] => []
  | arg :: rest => findNots arg :: findNotsArgs rest

def pushNots : Expr Op Args Arrays Atom → Expr Op Args Arrays Atom
  | .opExpr opno args =>
    match getNegator opno with
    | some negator => .opExpr negator args
    | none => .notClause (.opExpr opno args)
  | .scalarArrayOpExpr opno useOr args =>
    match getNegator opno with
    | some negator => .scalarArrayOpExpr negator (!useOr) args
    | none => .notClause (.scalarArrayOpExpr opno useOr args)
  | .andClause args => .orClause (pullOrs (pushNotsArgs args))
  | .orClause args => .andClause (pullAnds (pushNotsArgs args))
  | .notClause arg => findNots arg
  | .other atom => .notClause (.other atom)

/-- The loops of `push_nots` over the arguments. -/
def pushNotsArgs : List (Expr Op Args Arrays Atom) → List (Expr Op Args Arrays Atom)
  | [] => []
  | arg :: rest => pushNots arg :: pushNotsArgs rest

end

end Nots

section Duplicates

variable [DecidableEq Op] [DecidableEq Args] [DecidableEq Arrays] [DecidableEq Atom]

/-- The shortest AND clause, or the first clause that is no AND. -/
def chooseReference (reference : List (Expr Op Args Arrays Atom)) (numSubclauses : Nat) :
    List (Expr Op Args Arrays Atom) → List (Expr Op Args Arrays Atom)
  | [] => reference
  | .andClause subclauses :: rest =>
    if reference.isEmpty ∨ subclauses.length < numSubclauses then chooseReference subclauses subclauses.length rest
    else chooseReference reference numSubclauses rest
  | clause :: _ => [clause]

/-- `list_union(NIL, list)` -/
def listUnion (list : List (Expr Op Args Arrays Atom)) : List (Expr Op Args Arrays Atom) :=
  list.foldl (fun result datum => if member result datum then result else result ++ [datum]) []

def listDifference (list1 list2 : List (Expr Op Args Arrays Atom)) : List (Expr Op Args Arrays Atom) :=
  list1.filter fun datum => !member list2 datum

def hasClause (refclause : Expr Op Args Arrays Atom) : Expr Op Args Arrays Atom → Bool
  | .andClause args => member args refclause
  | clause => equal refclause clause

/-- The rest of a clause without the winners; `none` where nothing is left. -/
def reduceClause (winners : List (Expr Op Args Arrays Atom)) :
    Expr Op Args Arrays Atom → Option (Expr Op Args Arrays Atom)
  | .andClause args =>
    match listDifference args winners with
    | [] => none
    | [subclause] => some subclause
    | subclauses => some (.andClause subclauses)
  | clause => if member winners clause then none else some clause

def reduceClauses (winners : List (Expr Op Args Arrays Atom)) (neworlist : List (Expr Op Args Arrays Atom)) :
    List (Expr Op Args Arrays Atom) → List (Expr Op Args Arrays Atom)
  | [] => neworlist
  | clause :: rest =>
    match reduceClause winners clause with
    | some reduced => reduceClauses winners (neworlist ++ [reduced]) rest
    | none => []

def singleOrAnd : List (Expr Op Args Arrays Atom) → Expr Op Args Arrays Atom
  | [winner] => winner
  | winners => .andClause (pullAnds winners)

/-- The last part of `process_duplicate_ors`. -/
def joinWinners (winners : List (Expr Op Args Arrays Atom)) : List (Expr Op Args Arrays Atom) → Expr Op Args Arrays Atom
  | [] => singleOrAnd winners
  | [clause] => singleOrAnd (winners ++ [clause])
  | neworlist => singleOrAnd (winners ++ [.orClause (pullOrs neworlist)])

def processDuplicateOrs (orlist : List (Expr Op Args Arrays Atom)) : Option (Expr Op Args Arrays Atom) :=
  match orlist with
  | [] => none
  | [clause] => some clause
  | _ =>
    let reference := listUnion (chooseReference [] 0 orlist)
    let winners := reference.filter fun refclause => orlist.all (hasClause refclause)
    if winners.isEmpty then some (.orClause orlist)
    else some (joinWinners winners (reduceClauses winners [] orlist))

mutual

/-- `find_duplicate_ors`; `none` is `NULL` -/
def findDuplicateOrs : Expr Op Args Arrays Atom → Option (Expr Op Args Arrays Atom)
  | .orClause args => do processDuplicateOrs (← findDuplicateOrsArgs args)
  | .andClause args => do return .andClause (pullAnds (← findDuplicateOrsArgs args))
  | qual => some qual

def findDuplicateOrsArgs : List (Expr Op Args Arrays Atom) → Option (List (Expr Op Args Arrays Atom))
  | [] => some []
  | arg :: rest => do return (← findDuplicateOrs arg) :: (← findDuplicateOrsArgs rest)

end

/-- `canonicalize_qual`; `none` is the empty qualification -/
def canonicalizeQual (getNegator : Op → Option Op) (qual : Option (Expr Op Args Arrays Atom)) :
    Option (Expr Op Args Arrays Atom) := do
  let qual ← qual
  findDuplicateOrs (findNots getNegator qual)

end Duplicates

end

open Lib Expr List

variable {Op Args Arrays Atom : Type} {getNegator : Op → Option Op}

/-- The values of the operators on their arguments, and of the other expressions. An array argument stands for
the arguments with each of its elements, or is null. -/
structure Assignment (getNegator : Op → Option Op) (Args Arrays Atom : Type) where
  operator : Op → Args → Truth
  elements : Arrays → Option (List Args)
  other : Atom → Truth
  negates : getNegator opno = some negator → operator negator args = (operator opno args).not

variable {clause : Expr Op Args Arrays Atom}

section Meaning

variable (values : Assignment getNegator Args Arrays Atom) {args : List (Expr Op Args Arrays Atom)}

/-- `x op ANY (array)` or `x op ALL (array)` -/
def Assignment.array (opno : Op) (useOr : Bool) (args : Arrays) : Truth :=
  match values.elements args with
  | none => .null
  | some elements =>
    if useOr then .any (elements.map (values.operator opno)) else .all (elements.map (values.operator opno))

mutual

def eval : Expr Op Args Arrays Atom → Truth
  | .opExpr opno args => values.operator opno args
  | .scalarArrayOpExpr opno useOr args => values.array opno useOr args
  | .other atom => values.other atom
  | .andClause args => .all (evalArgs args)
  | .orClause args => .any (evalArgs args)
  | .notClause arg => (eval arg).not

def evalArgs : List (Expr Op Args Arrays Atom) → List Truth
  | [] => []
  | arg :: rest => eval arg :: evalArgs rest

end

variable {values}

theorem evalArgs_eq (args : List (Expr Op Args Arrays Atom)) : evalArgs values args = args.map (eval values) := by
  induction args with
  | nil => rfl
  | cons arg rest ih => rw [evalArgs, ih, map_cons]

theorem eval_and (args : List (Expr Op Args Arrays Atom)) :
    eval values (.andClause args) = .all (args.map (eval values)) := by
  rw [eval, evalArgs_eq]

theorem eval_or (args : List (Expr Op Args Arrays Atom)) :
    eval values (.orClause args) = .any (args.map (eval values)) := by
  rw [eval, evalArgs_eq]

theorem eval_and_true : eval values (.andClause args) = .true ↔ ∀ arg ∈ args, eval values arg = .true := by
  simp [eval_and, Truth.all_eq_true]

theorem eval_and_false : eval values (.andClause args) = .false ↔ ∃ arg ∈ args, eval values arg = .false := by
  simp [eval_and, Truth.all_eq_false]

theorem eval_or_true : eval values (.orClause args) = .true ↔ ∃ arg ∈ args, eval values arg = .true := by
  simp [eval_or, Truth.any_eq_true]

theorem eval_or_false : eval values (.orClause args) = .false ↔ ∀ arg ∈ args, eval values arg = .false := by
  simp [eval_or, Truth.any_eq_false]

theorem eval_pullAnds (args : List (Expr Op Args Arrays Atom)) :
    eval values (.andClause (pullAnds args)) = eval values (.andClause args) := by
  apply Truth.ext
  · simp only [eval_and_true]
    fun_induction pullAnds args <;> simp_all [or_imp, forall_and, eval_and_true]
  · simp only [eval_and_false]
    fun_induction pullAnds args <;> simp_all [or_and_right, exists_or, eval_and_false]

theorem eval_pullOrs (args : List (Expr Op Args Arrays Atom)) :
    eval values (.orClause (pullOrs args)) = eval values (.orClause args) := by
  apply Truth.ext
  · simp only [eval_or_true]
    fun_induction pullOrs args <;> simp_all [or_and_right, exists_or, eval_or_true]
  · simp only [eval_or_false]
    fun_induction pullOrs args <;> simp_all [or_imp, forall_and, eval_or_false]

theorem findNotsArgs_eq (args : List (Expr Op Args Arrays Atom)) :
    findNotsArgs getNegator args = args.map (findNots getNegator) := by
  induction args with
  | nil => rfl
  | cons arg rest ih => rw [findNotsArgs, ih, map_cons]

theorem pushNotsArgs_eq (args : List (Expr Op Args Arrays Atom)) :
    pushNotsArgs getNegator args = args.map (pushNots getNegator) := by
  induction args with
  | nil => rfl
  | cons arg rest ih => rw [pushNotsArgs, ih, map_cons]

theorem Assignment.array_negator (known : getNegator opno = some negator) (useOr : Bool) (args : Arrays) :
    values.array negator (!useOr) args = (values.array opno useOr args).not := by
  have each : values.operator negator = fun args => (values.operator opno args).not :=
    funext fun _ => values.negates known
  unfold Assignment.array
  cases values.elements args with
  | none => rfl
  | some elements =>
    grind [Truth.not_all, Function.comp_def, Truth.not_any]

theorem eval_nots (qual : Expr Op Args Arrays Atom) : eval values (findNots getNegator qual) = eval values qual ∧
      eval values (pushNots getNegator qual) = (eval values qual).not := by
  induction qual using induct with
  | opExpr opno args =>
    refine ⟨rfl, ?_⟩
    rw [pushNots]
    cases negator : getNegator opno with
    | none => rfl
    | some other => exact values.negates negator
  | scalarArrayOpExpr opno useOr args =>
    refine ⟨rfl, ?_⟩
    rw [pushNots]
    cases negator : getNegator opno with
    | none => rfl
    | some other => exact values.array_negator negator useOr args
  | other atom => exact ⟨rfl, rfl⟩
  | andClause args ih =>
    have kept := map_congr_left fun arg member => (ih arg member).1
    have negated := map_congr_left fun arg member => (ih arg member).2
    constructor
    · rw [findNots, eval_pullAnds, findNotsArgs_eq, eval_and, eval_and, map_map]
      exact congrArg Truth.all kept
    · rw [pushNots, eval_pullOrs, pushNotsArgs_eq, eval_or, eval_and, map_map, Truth.not_all, map_map]
      exact congrArg Truth.any negated
  | orClause args ih =>
    have kept := map_congr_left fun arg member => (ih arg member).1
    have negated := map_congr_left fun arg member => (ih arg member).2
    constructor
    · rw [findNots, eval_pullOrs, findNotsArgs_eq, eval_or, eval_or, map_map]
      exact congrArg Truth.any kept
    · rw [pushNots, eval_pullAnds, pushNotsArgs_eq, eval_and, eval_or, map_map, Truth.not_any, map_map]
      exact congrArg Truth.all negated
  | notClause arg ih => exact ⟨ih.2, by rw [pushNots, ih.1, eval, Truth.not_not]⟩

end Meaning

section Clauses

variable {values : Assignment getNegator Args Arrays Atom}

def conjuncts : Expr Op Args Arrays Atom → List (Expr Op Args Arrays Atom)
  | .andClause args => args
  | clause => [clause]

theorem exists_args (kind : clause.isAnd = true) : ∃ args, clause = .andClause args := by
  cases clause <;> first | exact ⟨_, rfl⟩ | cases kind

theorem eval_conjuncts (clause : Expr Op Args Arrays Atom) :
    eval values (.andClause (conjuncts clause)) = eval values clause := by
  cases clause with
  | andClause args => rfl
  | _ => exact Truth.ext (by simp [eval_and_true, conjuncts]) (by simp [eval_and_false, conjuncts])

theorem conjuncts_other (other : clause.isAnd = false) : conjuncts clause = [clause] := by
  cases clause <;> first | rfl | cases other

theorem eval_single (clause : Expr Op Args Arrays Atom) : eval values (.andClause [clause]) = eval values clause :=
  Truth.ext (by simp [eval_and_true]) (by simp [eval_and_false])

theorem eval_singleOrAnd (winners : List (Expr Op Args Arrays Atom)) :
    eval values (singleOrAnd winners) = eval values (.andClause winners) := by
  unfold singleOrAnd
  grind [eval_single, eval_pullAnds]

theorem eval_joinWinners (winners : List (Expr Op Args Arrays Atom))
    (left : neworlist ≠ []) :
    eval values (joinWinners winners neworlist) = eval values (.andClause (winners ++ [.orClause neworlist])) := by
  unfold joinWinners
  split
  next => exact absurd rfl left
  next clause =>
    have single : eval values (.orClause [clause]) = eval values clause :=
      Truth.ext (by simp [eval_or_true]) (by simp [eval_or_false])
    rw [eval_singleOrAnd, eval_and, eval_and]
    simp [single]
  next =>
    rw [eval_singleOrAnd, eval_and, eval_and]
    simp [eval_pullOrs]

/-- An AND/OR structure without AND under AND, OR under OR, or NOT above any of AND, OR and NOT. -/
inductive Tidy : Expr Op Args Arrays Atom → Prop where
  | opExpr : Tidy (.opExpr opno args)
  | scalarArrayOpExpr : Tidy (.scalarArrayOpExpr opno useOr args)
  | other : Tidy (.other atom)
  | andClause (nonempty : args ≠ []) (flat : ∀ arg ∈ args, arg.isAnd = false) (each : ∀ arg ∈ args, Tidy arg) :
    Tidy (.andClause args)
  | orClause (nonempty : args ≠ []) (flat : ∀ arg ∈ args, arg.isOr = false) (each : ∀ arg ∈ args, Tidy arg) :
    Tidy (.orClause args)
  | notClause (low : arg.isAnd = false ∧ arg.isOr = false ∧ arg.isNot = false) : Tidy (.notClause arg)

/-- Every AND and OR has arguments. -/
inductive Proper : Expr Op Args Arrays Atom → Prop where
  | opExpr : Proper (.opExpr opno args)
  | scalarArrayOpExpr : Proper (.scalarArrayOpExpr opno useOr args)
  | other : Proper (.other atom)
  | andClause (nonempty : args ≠ []) (each : ∀ arg ∈ args, Proper arg) : Proper (.andClause args)
  | orClause (nonempty : args ≠ []) (each : ∀ arg ∈ args, Proper arg) : Proper (.orClause args)
  | notClause (inner : Proper arg) : Proper (.notClause arg)

variable {args : List (Expr Op Args Arrays Atom)}

theorem pullAnds_tidy (each : ∀ arg ∈ args, Tidy arg) :
    (args ≠ [] → pullAnds args ≠ []) ∧ ∀ arg ∈ pullAnds args, arg.isAnd = false ∧ Tidy arg := by
  fun_induction pullAnds args with
  | case1 => simp
  | case2 args rest first second =>
    obtain ⟨own, others⟩ := forall_mem_cons.mp each
    cases own with
    | andClause nonempty flat inner =>
      grind [append_ne_nil_of_left_ne_nil]
  | case3 subexpr rest notAnd ih =>
    obtain ⟨own, others⟩ := forall_mem_cons.mp each
    refine ⟨fun _ => cons_ne_nil _ _, forall_mem_cons.mpr ⟨⟨?_, own⟩, (ih others).2⟩⟩
    cases subexpr <;> first | rfl | exact absurd rfl (notAnd _)

theorem pullOrs_tidy (each : ∀ arg ∈ args, Tidy arg) :
    (args ≠ [] → pullOrs args ≠ []) ∧ ∀ arg ∈ pullOrs args, arg.isOr = false ∧ Tidy arg := by
  fun_induction pullOrs args with
  | case1 => simp
  | case2 args rest first second =>
    obtain ⟨own, others⟩ := forall_mem_cons.mp each
    cases own with
    | orClause nonempty flat inner =>
      grind [append_ne_nil_of_left_ne_nil]
  | case3 subexpr rest notOr ih =>
    obtain ⟨own, others⟩ := forall_mem_cons.mp each
    refine ⟨fun _ => cons_ne_nil _ _, forall_mem_cons.mpr ⟨⟨?_, own⟩, (ih others).2⟩⟩
    cases subexpr <;> first | rfl | exact absurd rfl (notOr _)

theorem tidy_and (nonempty : args ≠ []) (each : ∀ arg ∈ args, Tidy arg) : Tidy (.andClause (pullAnds args)) :=
  have pulled := pullAnds_tidy each
  .andClause (pulled.1 nonempty) (fun arg member => (pulled.2 arg member).1) fun arg member => (pulled.2 arg member).2

theorem tidy_or (nonempty : args ≠ []) (each : ∀ arg ∈ args, Tidy arg) : Tidy (.orClause (pullOrs args)) :=
  have pulled := pullOrs_tidy each
  .orClause (pulled.1 nonempty) (fun arg member => (pulled.2 arg member).1) fun arg member => (pulled.2 arg member).2

theorem nots_tidy (proper : Proper qual) :
    Tidy (findNots getNegator qual) ∧ Tidy (pushNots getNegator qual) := by
  induction proper with
  | opExpr =>
    refine ⟨.opExpr, ?_⟩
    rw [pushNots]
    split
    · exact .opExpr
    · exact .notClause ⟨rfl, rfl, rfl⟩
  | scalarArrayOpExpr =>
    refine ⟨.scalarArrayOpExpr, ?_⟩
    rw [pushNots]
    split
    · exact .scalarArrayOpExpr
    · exact .notClause ⟨rfl, rfl, rfl⟩
  | other => exact ⟨.other, .notClause ⟨rfl, rfl, rfl⟩⟩
  | andClause nonempty each ih =>
    rw [findNots, pushNots, findNotsArgs_eq, pushNotsArgs_eq]
    exact ⟨tidy_and (by simpa using nonempty) (by simpa using fun arg member => (ih arg member).1),
      tidy_or (by simpa using nonempty) (by simpa using fun arg member => (ih arg member).2)⟩
  | orClause nonempty each ih =>
    rw [findNots, pushNots, findNotsArgs_eq, pushNotsArgs_eq]
    exact ⟨tidy_or (by simpa using nonempty) (by simpa using fun arg member => (ih arg member).1),
      tidy_and (by simpa using nonempty) (by simpa using fun arg member => (ih arg member).2)⟩
  | notClause inner ih => exact ⟨ih.2, ih.1⟩

theorem conjuncts_tidy (tidy : Tidy clause) :
    conjuncts clause ≠ [] ∧ ∀ conjunct ∈ conjuncts clause, conjunct.isAnd = false ∧ Tidy conjunct := by
  cases tidy with
  | andClause nonempty flat each =>
    exact ⟨nonempty, fun conjunct member => ⟨flat conjunct member, each conjunct member⟩⟩
  | opExpr => simp [conjuncts, isAnd, Tidy.opExpr]
  | scalarArrayOpExpr => simp [conjuncts, isAnd, Tidy.scalarArrayOpExpr]
  | other => simp [conjuncts, isAnd, Tidy.other]
  | orClause nonempty flat each => simp [conjuncts, isAnd, Tidy.orClause nonempty flat each]
  | notClause low => simp [conjuncts, isAnd, Tidy.notClause low]

theorem joinWinners_tidy {winners neworlist : List (Expr Op Args Arrays Atom)} (some : winners ≠ [])
    (each : ∀ winner ∈ winners, Tidy winner) (reduced : ∀ clause ∈ neworlist, Tidy clause) :
    Tidy (joinWinners winners neworlist) := by
  have single : ∀ list : List (Expr Op Args Arrays Atom), list ≠ [] → (∀ clause ∈ list, Tidy clause) →
      Tidy (singleOrAnd list) := by
    intro list nonempty all
    unfold singleOrAnd
    grind [tidy_and]
  unfold joinWinners
  split
  · exact single winners some each
  · refine single _ (by simp) fun clause member => ?_
    grind
  · next nonempty _ =>
    refine single _ (by simp) fun clause member => ?_
    grind [tidy_or]

end Clauses

section Common

variable [DecidableEq Op] [DecidableEq Args] [DecidableEq Arrays] [DecidableEq Atom]
  {values : Assignment getNegator Args Arrays Atom}

theorem hasClause_iff : hasClause refclause clause = true ↔ refclause ∈ conjuncts clause := by
  cases clause with
  | andClause args => exact member_iff
  | _ => simp [hasClause, conjuncts, equal_iff]

theorem mem_listDifference {list1 list2 : List (Expr Op Args Arrays Atom)} :
    datum ∈ listDifference list1 list2 ↔ datum ∈ list1 ∧ datum ∉ list2 := by
  simp [listDifference, ← member_iff]

theorem reduceClause_other (other : clause.isAnd = false) :
    reduceClause winners clause = if member winners clause then none else some clause := by
  cases clause <;> first | rfl | cases other

theorem reduceClause_none (nothing : reduceClause winners clause = none) :
    ∀ conjunct ∈ conjuncts clause, conjunct ∈ winners := by
  cases kind : clause.isAnd with
  | true =>
    obtain ⟨args, rfl⟩ := exists_args kind
    rw [reduceClause] at nothing
    split at nothing
    next empty =>
      intro conjunct member
      by_contra outside
      exact not_mem_nil (empty ▸ mem_listDifference.mpr ⟨member, outside⟩)
    next => cases nothing
    next => cases nothing
  | false =>
    grind [reduceClause_other, conjuncts_other, member_iff]

theorem eval_reduceClause (found : reduceClause winners clause = some reduced) :
    eval values reduced = eval values (.andClause (listDifference (conjuncts clause) winners)) := by
  cases kind : clause.isAnd with
  | true =>
    obtain ⟨args, rfl⟩ := exists_args kind
    grind [reduceClause, conjuncts, eval_single]
  | false =>
    grind [reduceClause_other, conjuncts_other, listDifference, eval_single]

theorem reduceClauses_eq (winners acc orlist : List (Expr Op Args Arrays Atom)) : reduceClauses winners acc orlist =
      if orlist.all fun clause => (reduceClause winners clause).isSome then acc ++
      orlist.filterMap (reduceClause winners)
      else [] := by
  induction orlist generalizing acc with
  | nil => simp [reduceClauses]
  | cons clause rest ih =>
    grind [reduceClauses]

theorem eval_common (arms : orlist ≠ [])
    (common : ∀ winner ∈ winners, ∀ clause ∈ orlist, winner ∈ conjuncts clause) :
    eval values (joinWinners winners (reduceClauses winners [] orlist)) = eval values (.orClause orlist) := by
  obtain ⟨arm, inside⟩ := exists_mem_of_ne_nil orlist arms
  have clauseTrue : ∀ clause : Expr Op Args Arrays Atom,
      eval values clause = .true ↔ ∀ conjunct ∈ conjuncts clause, eval values conjunct = .true := fun clause => by
    rw [← eval_conjuncts clause, eval_and_true]
  have clauseFalse : ∀ clause : Expr Op Args Arrays Atom,
      eval values clause = .false ↔ ∃ conjunct ∈ conjuncts clause, eval values conjunct = .false := fun clause => by
    rw [← eval_conjuncts clause, eval_and_false]
  rw [reduceClauses_eq]
  by_cases whole : orlist.all (fun clause => (reduceClause winners clause).isSome) = true
  · rw [if_pos whole, nil_append]
    have reduces : ∀ clause ∈ orlist, ∃ reduced, reduceClause winners clause = some reduced := by
      grind [Option.isSome_iff_exists]
    have left : orlist.filterMap (reduceClause winners) ≠ [] := by
      grind
    rw [eval_joinWinners winners left]
    apply Truth.ext
    · simp only [eval_and_true, eval_or_true, mem_append, mem_singleton]
      constructor
      · intro all
        obtain ⟨reduced, listed, holds⟩ := eval_or_true.mp (all _ (Or.inr rfl))
        obtain ⟨clause, member, found⟩ := mem_filterMap.mp listed
        rw [eval_reduceClause found, eval_and_true] at holds
        grind [mem_listDifference]
      · rintro ⟨clause, member, holds⟩ conjunct (winner | rfl)
        · grind
        · obtain ⟨reduced, found⟩ := reduces clause member
          refine eval_or_true.mpr ⟨reduced, mem_filterMap.mpr ⟨clause, member, found⟩, ?_⟩
          rw [eval_reduceClause found, eval_and_true]
          grind [mem_listDifference]
    · simp only [eval_and_false, eval_or_false, mem_append, mem_singleton]
      constructor
      · rintro ⟨conjunct, winner | rfl, fails⟩ clause member
        · grind
        · obtain ⟨reduced, found⟩ := reduces clause member
          have arm := eval_or_false.mp fails reduced (mem_filterMap.mpr ⟨clause, member, found⟩)
          rw [eval_reduceClause found, eval_and_false] at arm
          grind [mem_listDifference]
      · intro all
        by_cases fails : ∃ winner ∈ winners, eval values winner = .false
        · grind
        · refine ⟨_, Or.inr rfl, eval_or_false.mpr fun reduced member => ?_⟩
          obtain ⟨clause, member, found⟩ := mem_filterMap.mp member
          obtain ⟨conjunct, own, failing⟩ := (clauseFalse clause).mp (all clause member)
          rw [eval_reduceClause found, eval_and_false]
          grind [mem_listDifference]
  · -- one arm has nothing but winners, which makes the others irrelevant
    rw [if_neg whole, joinWinners, eval_singleOrAnd]
    obtain ⟨clause, member, nothing⟩ : ∃ clause ∈ orlist, reduceClause winners clause = none := by
      simpa using whole
    have only := reduceClause_none nothing
    apply Truth.ext
    · grind [eval_and_true, eval_or_true]
    · rw [eval_and_false, eval_or_false]
      grind

theorem reduceClause_tidy (tidy : Tidy clause)
    (found : reduceClause winners clause = some reduced) : Tidy reduced := by
  obtain ⟨-, each⟩ := conjuncts_tidy tidy
  cases kind : clause.isAnd with
  | true =>
    obtain ⟨args, rfl⟩ := exists_args kind
    have kept : ∀ datum ∈ listDifference args winners, datum.isAnd = false ∧ Tidy datum := fun datum member =>
      each datum (mem_listDifference.mp member).1
    rw [reduceClause] at found
    split at found
    next => cases found
    next subclause single =>
      cases found
      exact (kept _ (by simp [single])).2
    next nonempty _ =>
      cases found
      exact .andClause nonempty (fun datum member => (kept datum member).1) fun datum member => (kept datum member).2
  | false =>
    grind [reduceClause_other]

theorem processDuplicateOrs_spec (nonempty : orlist ≠ [])
    (flat : ∀ clause ∈ orlist, clause.isOr = false) (each : ∀ clause ∈ orlist, Tidy clause) :
    ∃ result, processDuplicateOrs orlist = some result ∧ Tidy result ∧
      ∀ values : Assignment getNegator Args Arrays Atom, eval values result = eval values (.orClause orlist) := by
  unfold processDuplicateOrs
  split
  · exact absurd rfl nonempty
  · next clause =>
    refine ⟨clause, rfl, each clause mem_cons_self, fun values => ?_⟩
    exact Truth.ext (by simp [eval_or_true]) (by simp [eval_or_false])
  · dsimp only
    split
    · exact ⟨_, rfl, .orClause nonempty flat each, fun values => rfl⟩
    · next winning =>
      generalize chosen : (listUnion (chooseReference [] 0 orlist)).filter _ = winners at winning ⊢
      have common : ∀ winner ∈ winners, ∀ clause ∈ orlist, winner ∈ conjuncts clause := by
        grind [hasClause_iff]
      have tidy : ∀ winner ∈ winners, Tidy winner := by
        grind [exists_mem_of_ne_nil, conjuncts_tidy]
      refine ⟨_, rfl, joinWinners_tidy (by simpa using winning) tidy fun clause member => ?_, fun values =>
        eval_common nonempty common⟩
      grind [reduceClauses_eq, reduceClause_tidy]

/-- `find_duplicate_ors` on a tidy structure. An AND stays one, and no OR is made of anything else. -/
theorem findDuplicateOrs_spec (tidy : Tidy qual) :
    ∃ result, findDuplicateOrs qual = some result ∧ Tidy result ∧ (qual.isOr = false → result.isOr = false) ∧
      ∀ values : Assignment getNegator Args Arrays Atom, eval values result = eval values qual := by
  have args_spec : ∀ args : List (Expr Op Args Arrays Atom),
    (∀ arg ∈ args, ∃ result, findDuplicateOrs arg = some result ∧
      Tidy result ∧ (arg.isOr = false → result.isOr = false) ∧
        ∀ values : Assignment getNegator Args Arrays Atom, eval values result = eval values arg) →
      ∃ results, findDuplicateOrsArgs args = some results ∧ (args ≠ [] → results ≠ []) ∧
        (∀ result ∈ results, Tidy result) ∧
        ((∀ arg ∈ args, arg.isOr = false) → ∀ result ∈ results, result.isOr = false) ∧
        ∀ values : Assignment getNegator Args Arrays Atom, results.map (eval values) = args.map (eval values) := by
    intro args
    induction args with
    | nil => exact fun _ => ⟨[], rfl, id, by simp, by simp, by simp⟩
    | cons arg rest ih =>
      intro each
      obtain ⟨⟨first, found, tidy, same, value⟩, others⟩ := forall_mem_cons.mp each
      obtain ⟨results, foundRest, -, tidyRest, sameRest, valueRest⟩ := ih others
      refine ⟨first :: results, by simp [findDuplicateOrsArgs, found, foundRest], fun _ => cons_ne_nil _ _,
        forall_mem_cons.mpr ⟨tidy, tidyRest⟩, fun flat => ?_, fun values => ?_⟩
      · grind
      · rw [map_cons, map_cons, value, valueRest]
  induction tidy with
  | opExpr => exact ⟨_, rfl, .opExpr, id, fun values => rfl⟩
  | scalarArrayOpExpr => exact ⟨_, rfl, .scalarArrayOpExpr, id, fun values => rfl⟩
  | other => exact ⟨_, rfl, .other, id, fun values => rfl⟩
  | notClause low => exact ⟨_, rfl, .notClause low, id, fun values => rfl⟩
  | andClause nonempty flat each ih =>
    obtain ⟨results, found, full, tidy, -, value⟩ := args_spec _ ih
    refine ⟨_, by simp [findDuplicateOrs, found], tidy_and (full nonempty) tidy, fun _ => rfl, fun values => ?_⟩
    rw [eval_pullAnds, eval_and, eval_and, value]
  | orClause nonempty flat each ih =>
    obtain ⟨results, found, full, tidy, same, value⟩ := args_spec _ ih
    obtain ⟨result, processed, tidyResult, meaning⟩ := processDuplicateOrs_spec (full nonempty) (same flat) tidy
    refine ⟨result, by simp [findDuplicateOrs, found, processed], tidyResult, (nomatch ·), fun values => ?_⟩
    rw [meaning, eval_or, eval_or, value]

/-- `canonicalize_qual` returns a qualification of the same three-valued value for every assignment, with the
ANDs and ORs flat and the NOTs at the clauses. -/
theorem canonicalizeQual_correct {qual : Expr Op Args Arrays Atom} (proper : Proper qual) :
    ∃ result, canonicalizeQual getNegator (some qual) = some result ∧ Tidy result ∧
      ∀ values : Assignment getNegator Args Arrays Atom, eval values result = eval values qual := by
  obtain ⟨result, found, tidy, -, meaning⟩ := findDuplicateOrs_spec (nots_tidy proper).1
  exact ⟨result, by simp [canonicalizeQual, found], tidy, fun values => (meaning values).trans (eval_nots qual).1⟩

/-- `NOT (NOT (a < 1 AND b) AND NOT (a < 1 AND c))`, where `>=` is the negator of `<`. -/
def sampleQual : Expr Bool Nat Nat Nat := .notClause (.andClause
  [.notClause (.andClause [.opExpr true 1, .other 2]), .notClause (.andClause [.opExpr true 1, .other 3])])

def sampleNegator (less : Bool) : Option Bool := if less then some false else none

theorem canonicalizeQual_sample : Proper sampleQual ∧
    ∃ result, canonicalizeQual sampleNegator (some sampleQual) = some result ∧ Tidy result ∧
      ∀ values : Assignment sampleNegator Nat Nat Nat, eval values result = eval values sampleQual :=
  have both {first second : Expr Bool Nat Nat Nat} (left : Proper first) (right : Proper second) :
      Proper (.notClause (.andClause [first, second])) :=
    .notClause (.andClause (cons_ne_nil _ _) (forall_mem_cons.mpr ⟨left, forall_mem_cons.mpr ⟨right, by simp⟩⟩))
  have proper : Proper sampleQual := both (both .opExpr .other) (both .opExpr .other)
  ⟨proper, canonicalizeQual_correct proper⟩

end Common

end BlockchainPG.Optimizer

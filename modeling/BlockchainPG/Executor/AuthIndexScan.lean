import BlockchainPG.Access.Mbtree
import BlockchainPG.Mbt.RangeAnswers

/-! `AuthIndexNext`, whose variables all scans of a backend share. -/

namespace BlockchainPG.Executor

open Lib Mbt Vo Libpq Access

/-- The names of the comparison operators. -/
inductive OpName where
  | lt | le | eq | ge | gt
deriving DecidableEq

/-- `Auth_Expr`: the indexed column compared with a constant. -/
structure AuthExpr where
  opName : OpName
  constvalue : Int
deriving DecidableEq

/-- The conditions that the parser makes: a comparison, or an `Auth_Op_Expr` of two. -/
inductive Condition where
  | op (expr : AuthExpr)
  | and (lexpr rexpr : AuthExpr)
  | or (lexpr rexpr : AuthExpr)
deriving DecidableEq

/-- A constant as an `int`. -/
def AuthExpr.bound (expr : AuthExpr) : Int := wrapSigned 4 expr.constvalue

/-- The bounds of an `Auth_Op_Expr`. `strcmp` is not zero when the names differ, and
`left` and `right` start with what the stack holds. -/
def opExprBounds (stack : Int × Int) (lexpr rexpr : AuthExpr) : Int × Int :=
  let bounds := if lexpr.opName ≠ .lt ∧ rexpr.opName ≠ .gt then (lexpr.bound, rexpr.bound) else stack
  if lexpr.opName ≠ .gt ∧ rexpr.opName ≠ .lt then (rexpr.bound, lexpr.bound) else bounds

def exprBounds (stack : Int × Int) (expr : AuthExpr) : Int × Int :=
  let left := if expr.opName ≠ .gt then expr.bound else stack.1
  let right := if expr.opName ≠ .lt then expr.bound else stack.2
  if expr.opName ≠ .eq then (expr.bound, expr.bound) else (left, right)

/-- `left` and `right` of `AuthIndexNext`. `authType` is not looked at. -/
def bounds (stack : Int × Int) : Condition → Int × Int
  | .op expr => exprBounds stack expr
  | .and lexpr rexpr | .or lexpr rexpr => opExprBounds stack lexpr rexpr

/-- What a scan works on, with what it finds on the stack and in the memory of its `rangevo`. -/
structure AuthIndexScanState (ι ρ : Type) where
  relation : ρ
  index : ι
  condition : Condition
  stack : Int × Int
  memory : Rangevo

/-- `myvo` with `vo_str` and `hashpmap_str`, which are allocated for it. -/
structure Opened where
  myvo : Pgvo
  voStr : List Char
  hashpmapStr : List Char

/-- The number of tuples of a scan. -/
def Opened.tuples (opened : Opened) : Nat := opened.myvo.itemdata.length

/-- The static variables of `nodeIndexscan.c`. -/
structure Statics where
  flag : Bool
  opened : Option Opened
  vectorIndex : Nat

/-- The static variables of a backend that has scanned nothing. -/
def Statics.initial : Statics where
  flag := true
  opened := none
  vectorIndex := 0

/-- What a call of `AuthIndexNext` leaves in the slot: a tuple of the scanned
relation, or the two buffers of the verification object. -/
inductive Answer (ρ : Type) where
  | tuple (relation : ρ) (tid : ItemPointerData)
  | finish (hashmapNum : Nat) (hashmapStr voStr : List Char)
deriving DecidableEq

section Scans

variable {ι ρ : Type}

/-- The first part of `AuthIndexNext`, done when `flag` is set. `vo_serialize` may run over `vo_str`. -/
def openScan (t : BplusTree) (maps : SharedMaps) (node : AuthIndexScanState ι ρ) : Option Opened := do
  let (left, right) := bounds node.stack node.condition
  let myvo ← mbtgettuple t left right maps node.memory
  let voStr ← fillBuffer (myvo.mbtreeSize * DEFAULTSIZE) (voSerialize myvo.vo)
  return { myvo, voStr, hashpmapStr := myvo.hashmap }

/-- The rest of `AuthIndexNext`. Nothing is answered where a null pointer is
followed or the tuple was never set. -/
def nextTuple (relation : ρ) (statics : Statics) : Option (Answer ρ × Statics) := do
  let opened ← statics.opened
  if opened.tuples = statics.vectorIndex then
    return (.finish opened.myvo.mbtreeSize opened.hashpmapStr opened.voStr,
      { statics with flag := true, opened := none })
  else
    let tid ← opened.myvo.itemdata[statics.vectorIndex]?
    return (.tuple relation tid, { statics with vectorIndex := statics.vectorIndex + 1 })

/-- `AuthIndexNext` for a scan on a tree; nothing if the process comes to harm. -/
def authIndexNext (t : BplusTree) (maps : SharedMaps) (node : AuthIndexScanState ι ρ) (statics : Statics) :
    Option (Answer ρ × Statics) :=
  if statics.flag then (openScan t maps node).bind fun opened => nextTuple node.relation ⟨false, some opened, 0⟩
  else nextTuple node.relation statics

/-- What the statements of a session do. A scan that is not asked any more is left as it is
when the next one begins, and what is done to indexes changes the maps that they share. -/
inductive Command (ν : Type) where
  | scan (node : ν)
  | next
  | fill (maps : SharedMaps)

/-- A backend, the scan that runs, how often it was asked and its last answer. -/
structure Backend (ν ρ : Type) where
  statics : Statics
  maps : SharedMaps
  node : Option ν
  calls : Nat
  answer : Option (Answer ρ)
  crashed : Bool

def Backend.initial (maps : SharedMaps) : Backend ν ρ :=
  { statics := .initial, maps, node := none, calls := 0, answer := none, crashed := false }

variable {ν : Type} (scans : ν → AuthIndexScanState ι ρ) (tree : ι → BplusTree) (childMaps : ι → SharedMaps)

def ask (backend : Backend ν ρ) (node : ν) : Backend ν ρ :=
  match authIndexNext (tree (scans node).index) backend.maps (scans node) backend.statics with
  | none => { backend with answer := none, crashed := true }
  | some (answer, statics) => { backend with statics, calls := backend.calls + 1, answer := some answer }

def perform (backend : Backend ν ρ) (command : Command ν) : Backend ν ρ :=
  if backend.crashed then backend
  else
    match command with
    | .scan node => { backend with node := some node, calls := 0, answer := none }
    | .next => (backend.node.map (ask scans tree backend)).getD backend
    | .fill maps => { backend with maps }

/-- What a scan opens if the shared maps are those of its own index. -/
def ownScan (node : ν) : Option Opened :=
  openScan (tree (scans node).index) (childMaps (scans node).index) (scans node)

/-- The answer to a call of a scan: its tuples in order and then its verification object. A scan that is asked
after its end starts again. -/
def Opened.answer (opened : Opened) (relation : ρ) (call : Nat) : Answer ρ :=
  match opened.myvo.itemdata[call % (opened.tuples + 1)]? with
  | some tid => .tuple relation tid
  | none => .finish opened.myvo.mbtreeSize opened.hashpmapStr opened.voStr

/-- A scan begins when the one before it was not asked at all or was run to its end, comes to no harm by
itself, and opens while the shared maps read like those of its own index. -/
def RunToEnd (backend : Backend ν ρ) : Command ν → Prop
  | .scan node => (ownScan scans tree childMaps node).isSome = true ∧
      ∀ before ∈ backend.node, ∀ opened ∈ ownScan scans tree childMaps before, backend.calls % (opened.tuples + 1) = 0
  | .next => ∀ node ∈ backend.node, ∀ opened ∈ ownScan scans tree childMaps node,
      backend.calls % (opened.tuples + 1) = 0 → backend.maps.text = (childMaps (scans node).index).text
  | .fill _ => True

instance (backend : Backend ν ρ) : ∀ command, Decidable (RunToEnd scans tree childMaps backend command)
  | .scan _ => inferInstanceAs (Decidable (_ ∧ _))
  | .next => inferInstanceAs (Decidable (∀ node ∈ backend.node, _))
  | .fill _ => isTrue trivial

/-- The static variables stand where the calls of the running scan have left them. -/
structure Stands (backend : Backend ν ρ) : Prop where
  alive : backend.crashed = false
  idle : backend.node = none → backend.statics.flag = true
  running : ∀ node, backend.node = some node → ∃ opened, ownScan scans tree childMaps node = some opened ∧
    (if backend.calls % (opened.tuples + 1) = 0 then backend.statics.flag = true
      else backend.statics = ⟨false, some opened, backend.calls % (opened.tuples + 1)⟩) ∧
    backend.answer = if backend.calls = 0 then none
      else some (opened.answer (scans node).relation (backend.calls - 1))

variable {scans tree childMaps} {backend : Backend ν ρ} {node : ν}

theorem openScan_congr {maps maps' : SharedMaps} (t : BplusTree) (same : maps.text = maps'.text)
    (node : AuthIndexScanState ι ρ) : openScan t maps node = openScan t maps' node := by
  simp only [openScan, mbtgettuple, same]

theorem nextTuple_opened (relation : ρ) (opened : Opened) (call : Nat) :
    nextTuple relation ⟨false, some opened, call % (opened.tuples + 1)⟩ = some (opened.answer relation call,
      if call % (opened.tuples + 1) = opened.tuples then ⟨true, none, opened.tuples⟩
      else ⟨false, some opened, call % (opened.tuples + 1) + 1⟩) := by
  have below : call % (opened.tuples + 1) < opened.tuples + 1 := Nat.mod_lt _ (Nat.succ_pos _)
  simp only [nextTuple, Opened.answer, Option.bind_eq_bind, Option.bind_some]
  generalize call % (opened.tuples + 1) = item at below ⊢
  by_cases last : item = opened.tuples
  · subst last
    simp [Opened.tuples]
  · have inside : item < opened.myvo.itemdata.length := by
      have : opened.tuples = opened.myvo.itemdata.length := rfl
      omega
    simp [last, Ne.symm last, List.getElem?_eq_getElem inside]

theorem succ_mod (call length : Nat) :
    (call + 1) % (length + 1) = if call % (length + 1) = length then 0 else call % (length + 1) + 1 := by
  have below : call % (length + 1) < length + 1 := Nat.mod_lt _ (Nat.succ_pos _)
  rw [← Nat.mod_add_mod]
  split
  · next last => rw [last, Nat.mod_self]
  · next more => exact Nat.mod_eq_of_lt (by omega)

theorem Stands.next (stands : Stands scans tree childMaps backend) (running : backend.node = some node)
    (allowed : RunToEnd scans tree childMaps backend .next) :
    Stands scans tree childMaps (ask scans tree backend node) := by
  obtain ⟨opened, own, statics, -⟩ := stands.running node running
  have answer : authIndexNext (tree (scans node).index) backend.maps (scans node) backend.statics =
      nextTuple (scans node).relation ⟨false, some opened, backend.calls % (opened.tuples + 1)⟩ := by
    unfold authIndexNext
    by_cases begins : backend.calls % (opened.tuples + 1) = 0
    · have same := allowed node running opened own begins
      rw [if_pos begins] at statics
      rw [if_pos statics, openScan_congr _ same, ← ownScan, own, begins]
      rfl
    · rw [if_neg begins] at statics
      rw [statics]
      rfl
  rw [nextTuple_opened] at answer
  have result : ask scans tree backend node = { backend with
      statics := if backend.calls % (opened.tuples + 1) = opened.tuples then ⟨true, none, opened.tuples⟩
        else ⟨false, some opened, backend.calls % (opened.tuples + 1) + 1⟩
      calls := backend.calls + 1
      answer := some (opened.answer (scans node).relation backend.calls) } := by
    rw [ask, answer]
  rw [result]
  refine ⟨stands.alive, fun none => absurd (running.symm.trans none) nofun, fun node' running' => ?_⟩
  obtain rfl := Option.some.inj (running.symm.trans running')
  refine ⟨opened, own, ?_, by simp⟩
  simp only [succ_mod]
  split <;> simp

theorem Stands.step (stands : Stands scans tree childMaps backend) (command : Command ν)
    (allowed : RunToEnd scans tree childMaps backend command) :
    Stands scans tree childMaps (perform scans tree backend command) := by
  rw [perform.eq_def, if_neg (by simp [stands.alive])]
  cases command with
  | scan node =>
    obtain ⟨opened, own⟩ := Option.isSome_iff_exists.mp allowed.1
    have ready : backend.statics.flag = true := by
      cases running : backend.node with
      | none => exact stands.idle running
      | some before =>
        obtain ⟨opened, own, statics, -⟩ := stands.running before running
        rwa [if_pos (allowed.2 before running opened own)] at statics
    refine ⟨stands.alive, nofun, fun node' running => ⟨opened, ?_, by simpa using ready, rfl⟩⟩
    obtain rfl := Option.some.inj running
    exact own
  | next =>
    cases running : backend.node with
    | none => exact stands
    | some node => exact stands.next running allowed
  | fill maps => exact ⟨stands.alive, stands.idle, stands.running⟩

/-- In every session that leaves no scan between its first call and its end and opens each one on the maps
of its index, every scan answers each of its calls from its own range on its own index. -/
theorem scans_answer_own (maps : SharedMaps) (commands : List (Command ν))
    (allowed : Meets (perform scans tree) (RunToEnd scans tree childMaps) (.initial maps) commands) (node : ν)
    (running : (run (perform scans tree) (.initial maps) commands).node = some node)
    (asked : (run (perform scans tree) (.initial maps) commands).calls = call + 1) :
    (run (perform scans tree) (.initial maps) commands).crashed = false ∧
      ∃ opened, ownScan scans tree childMaps node = some opened ∧
        (run (perform scans tree) (.initial maps) commands).answer =
          some (opened.answer (scans node).relation call) := by
  have start : Stands scans tree childMaps (.initial maps : Backend ν ρ) := ⟨rfl, fun _ => rfl, nofun⟩
  have stands := allowed.keeps start fun backend command stands allowed => stands.step command allowed
  obtain ⟨opened, own, -, answer⟩ := stands.running node running
  refine ⟨stands.alive, opened, own, ?_⟩
  rw [answer, asked]
  simp

end Scans

/-- Maps into which nothing was put. -/
def noMaps : SharedMaps := ⟨fun _ => hashmapNew, fun _ _ => 0⟩

def twelveKeys : List Put := (List.range 12).map fun (i : Nat) => ⟨i + 1, ['a'], ⟨0, 0, .ofNat (i + 1)⟩⟩

def twelveTree : BplusTree := run put (bplusTreeInit { Heap.zeroed with next := 0 } 10 10) twelveKeys

/-- A scan for a condition. -/
def scanFor (condition : Condition) : AuthIndexScanState Unit Unit := ⟨(), (), condition, (0, 0), blankVo⟩

/-- A scan for key 3, and one for the keys 5 and 6. -/
def twoScans : Bool → AuthIndexScanState Unit Unit
  | true => scanFor (.op ⟨.eq, 3⟩)
  | false => scanFor (.and ⟨.le, 6⟩ ⟨.ge, 5⟩)

theorem scans_answer_own_oneAfterTheOther : ∃ opened,
    ownScan twoScans (fun _ => twelveTree) (fun _ => noMaps) true = some opened ∧
    (run (perform twoScans fun _ => twelveTree) (.initial noMaps)
      [.scan false, .next, .next, .next, .scan true, .next]).answer = some (opened.answer () 0) :=
  (scans_answer_own noMaps _ (by decide +kernel) true (by decide +kernel) (by decide +kernel)).2

/-- The second scan gets a tuple of the first one, which was left after one tuple. -/
theorem abandoned_scan_answers : ∃ commands,
    let backend := run (perform twoScans fun _ => twelveTree) (.initial noMaps) commands
    backend.node = some true ∧ backend.calls = 1 ∧ backend.answer = some (.tuple () ⟨0, 0, 6⟩) ∧
    (ownScan twoScans (fun _ => twelveTree) (fun _ => noMaps) true).map (fun opened => opened.answer () 0) =
      some (.tuple () ⟨0, 0, 3⟩) :=
  ⟨[.scan false, .next, .scan true, .next], by decide +kernel⟩

end BlockchainPG.Executor

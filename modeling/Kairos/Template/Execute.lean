import Kairos.Template.Expressions

/-!
# The template interpreter

`TemplateRuntime.Execute` of `pkg/workflow/template.go`: a loop over the rows (`runRow`), and one
over the stages of each row (`runStage`); `runFrom` has fuel. `t.RangeValue` is nil, or points to
the last entry of `rangeStack`, or to a value on no stack: that of a range over nothing, or one left
from an earlier call (`RangePtr`). A call that starts behind the first row also prints the rows that
it comes to; `callStep` adds that to the steps here.
-/

namespace Kairos

open Strings (itoa trim atoi natDigits atoi_natDigits)

/-- `RangeValue`: the pairs a `range` goes over, its rows, and its variables. -/
structure RangeValue where
  value : List Kv
  startIndex : ℤ
  index : ℕ
  endIndex : ℤ
  keyVar : GoString
  valueVar : GoString

def RangeValue.remains (r : RangeValue) : Bool := r.index < r.value.length

def RangeValue.advance (r : RangeValue) : RangeValue := { r with index := r.index + 1 }

/-- `rangeValue` is a pointer: nil, to the top of `rangeStack`, or to a value no longer on it. -/
inductive RangePtr where
  | null
  | top
  | own (r : RangeValue)

/-- A message to send, with its receiver and keyword. -/
structure DeliverFlow where
  reciever : GoString
  send : GoString
  msg : Val

structure TrackLog where
  err : GoString
  exp : GoString

/-- What a run changes: the written fields of `TemplateRuntime`, the `rangeStack`, innermost first,
and the `ExecOutput`. -/
structure State extends Mem where
  expInput : Out
  expIndex : GoString
  rangeValue : RangePtr
  rangeStack : List RangeValue
  deliverFlows : List DeliverFlow
  logs : List TrackLog
  trackErr : GoString

/-- The rows and jumps of the template, and the environment of its expressions. -/
structure Program where
  exps : List Row
  indexRun : IndexRun
  env : ExecEnv

/-- `indexRun[idx]`, which is zero where the map has no entry. -/
def Program.target (t : Program) (idx : ℤ) : ℤ :=
  match idx with
  | .ofNat i => ((t.indexRun i).getD 0 : ℕ)
  | .negSucc _ => 0

/-- Why a run ends before the last row. -/
inductive Stop where
  | failed
  | suspended
  | returned (result : Option GoString)

/-- The loop goes on with the next stage, leaves the row, ends, or panics. -/
inductive StageResult where
  | next (idx : ℤ) (s : State)
  | leave (idx : ℤ) (s : State)
  | stop (why : Stop) (s : State)
  | panic

namespace State

def current (s : State) : Option RangeValue :=
  match s.rangeValue with
  | .null => none
  | .top => s.rangeStack.head?
  | .own r => some r

def advance (s : State) : State :=
  match s.rangeValue with
  | .null => s
  | .top => { s with rangeStack := s.rangeStack.modifyHead RangeValue.advance }
  | .own r => { s with rangeValue := .own r.advance }

def appendScope (s : State) : State := { s with varTemp := s.varTemp.append }

def popScope (s : State) : State := { s with varTemp := s.varTemp.pop.getD s.varTemp }

end State

section

variable (H : Host)

/-- `t.varTemp.Push` of the key and the value of a range's entry. None where one panics. -/
def bindRange (r : RangeValue) (kv : Kv) (s : State) : Option State :=
  match (do
      pushVar H ⟨r.keyVar, .str kv.key⟩
      pushVar H ⟨r.valueVar, kv.value⟩ : Eval Unit) s.toMem with
  | .ok _ m => some { s with toMem := m }
  | _ => none

/-- The entries of a range: those of a map in some order, and the elements of an array. -/
def rangeItems (h : Heap) : Val → List Kv
  | .map .plain (some a) => H.mapOrder a (h.entries a)
  | .mapPtr .reply (some a) => H.mapOrder a (h.entries a)
  | .slice base len => (h.elems base len).mapIdx fun k v => ⟨itoa k, v⟩
  | _ => []

/-- The start of a range. One over nothing goes to the row before its target. -/
def enterRange (t : Program) (idx : ℤ) (e : Expression) (out : Out) (s : State) :
    Option (ℤ × State) :=
  match e.params[1]?, e.params[2]?, (out.getD [])[0]? with
  | some keyVar, some valueVar, some v =>
    let r : RangeValue := ⟨rangeItems H s.heap v, idx, 0, t.target idx, keyVar, valueVar⟩
    match r.value with
    | [] => some (t.target idx - 1, { s with rangeValue := .own r })
    | kv :: _ =>
      (bindRange H r kv s).map fun s =>
        (idx, { s with rangeValue := .top, rangeStack := r.advance :: s.rangeStack })
  | _, _, _ => none

/-- The next round of a `range`, from its first row. -/
def restart (r : RangeValue) (s : State) : Option (ℤ × State) :=
  match r.value[r.index]? with
  | some kv => (bindRange H r kv s.appendScope).map fun s => (r.startIndex, s.advance)
  | none => none

/-- An `end`: its scope is closed, and where it ends the current range there is another round of it,
or else of the next outer one. -/
def endRow (idx : ℤ) (s : State) : Option (ℤ × State) :=
  let s := s.popScope
  match s.current with
  | none => some (idx, s)
  | some r =>
    if r.endIndex ≠ idx then some (idx, s)
    else if r.remains then restart H r s
    else
      match s.rangeStack with
      | [] => some (idx, s)
      | [_] => some (idx, { s with rangeStack := [], rangeValue := .null })
      | _ :: r' :: outer =>
        let s := { s with rangeStack := r' :: outer, rangeValue := .top }
        if r'.remains then restart H r' s.popScope else some (idx, s)

/-- The jumps of `else`, of a false `if`, and of an error or an empty string in a row with a
target. -/
def finishStage (t : Program) (idx : ℤ) (e : Expression) (out : Out) (err : Option GoString)
    (s : State) : StageResult :=
  if err.isSome ∧ t.target idx = 0 then .stop .failed { s with trackErr := err.getD [] }
  else if e.is .elseExp then .leave (t.target idx - 1) s
  else if e.is .ifExp ∧ out = some [.bool false] then .leave (t.target idx) s
  else if (out = some [.str []] ∨ err.isSome) ∧ 0 < t.target idx then
    -- the expression is printed with its input
    if (s.expInput.getD []).all (s.heap.nestsIn H.printDepth) then .leave (t.target idx) s
    else .panic
  else if err.isSome then .stop .failed { s with expInput := out }
  else .next idx { s with expInput := out }

def Expression.isSend (e : Expression) : Bool := e.is .send || e.is .sendu || e.is .sendsync

def formatIndex (idx : ℤ) (edx : ℕ) : GoString := itoa idx ++ "-" ++ itoa edx

def Expression.receiver (e : Expression) : Option GoString :=
  (if e.params.length = 2 then e.params[1]? else e.params[0]?).map fun p =>
    trim p "."

/-- The cases of the three sending keywords after `execute`. -/
def finishSend (idx : ℤ) (edx : ℕ) (e : Expression) (out : Out) (err : Option GoString)
    (s : State) : StageResult :=
  match err, out.getD [] with
  | some _, _ => .stop .failed s
  | none, [] => .stop .failed s
  | none, v :: _ =>
    match e.receiver with
    | none => .panic
    | some reciever =>
      let s := { s with
        expIndex := formatIndex idx (edx + 1)
        deliverFlows := s.deliverFlows ++ [⟨reciever, e.func, v⟩] }
      if e.is .sendsync then .stop .suspended s else .next idx s

def marshalOut (h : Heap) (out : Out) : Option GoString :=
  match out with
  | none => some (H.jsonRender .null)
  | some vs => (vs.mapM (encode H h H.printDepth)).map fun js => H.jsonRender (.arr js)

/-- The other cases after `execute`. -/
def finishOther (t : Program) (idx : ℤ) (e : Expression) (out : Out) (err : Option GoString)
    (s : State) : StageResult :=
  if e.is .rangeExp ∧ err = none then
    match enterRange H t idx e out s with
    | some (idx, s) => finishStage H t idx e out err s
    | none => .panic
  else if e.is .returnExp then .stop (.returned (marshalOut H s.heap out)) s
  else if e.is .endExp then
    match endRow H idx s with
    | some (idx, s) => finishStage H t idx e out err s
    | none => .panic
  else if e.is .breakExp then finishStage H t idx e out err { s with rangeValue := .null }
  else finishStage H t idx e out err s

def trackLog (idx : ℤ) (e : Expression) (msg : GoString) : TrackLog :=
  ⟨msg, "expression number " ++ itoa (idx + 1) ++ ": " ++ e.func ++
    " " ++
    Strings.join " " e.params⟩

/-- The body of the loop after `execute`, which prints the output first. -/
def afterExecute (t : Program) (idx : ℤ) (edx : ℕ) (e : Expression) (out : Out)
    (err : Option GoString) (s : State) : StageResult :=
  if !(out.getD []).all (s.heap.nestsIn H.printDepth) then .panic
  else
    let s := match err with
      | some msg => { s with logs := s.logs ++ [trackLog idx e msg] }
      | none => s
    if e.isSend then finishSend idx edx e out err s else finishOther H t idx e out err s

def runStage (t : Program) (idx : ℤ) (edx : ℕ) (e : Expression) (s : State) : StageResult :=
  match e.execute H t.env s.expInput s.toMem with
  | .ok out m => afterExecute H t idx edx e out none { s with toMem := m }
  | .err msg m => afterExecute H t idx edx e none (some msg) { s with toMem := m }
  | .panic => .panic

def runStages (t : Program) : ℤ → ℕ → Row → State → StageResult
  | idx, _, [], s => .next idx s
  | idx, edx, e :: es, s =>
    match runStage H t idx edx e s with
    | .next idx s => runStages t idx (edx + 1) es s
    | r => r

/-- The loop goes on with a row, ends, or panics. -/
inductive RowResult where
  | goto (row : ℕ) (s : State)
  | stop (why : Stop) (s : State)
  | panic

def openScope (exp : Row) (s : State) : State :=
  if exp.any Expression.isOpen then s.appendScope else s

def StageResult.endOfRow : StageResult → RowResult
  | .next idx s => .goto (idx + 1).toNat { s with expInput := some [] }
  | .leave idx s => .goto (idx + 1).toNat { s with expInput := some [] }
  | .stop why s => .stop why s
  | .panic => .panic

/-- One round of the outer loop of `Execute`: the row `exp`, number `row`, from stage `expIdx`
on. -/
def runRow (t : Program) (row expIdx : ℕ) (exp : Row) (s : State) : RowResult :=
  (runStages H t row expIdx (exp.drop expIdx) (openScope exp s)).endOfRow

inductive Final where
  | done (s : State)
  | stop (why : Stop) (s : State)
  | panic

def Final.isSuspended : Final → Bool
  | .stop .suspended _ => true
  | _ => false

/-- The loop over the rows, for `fuel` rows. -/
def runFrom (t : Program) : ℕ → ℕ → ℕ → State → Option Final
  | 0, _, _, _ => none
  | fuel + 1, row, expIdx, s =>
    match t.exps[row]? with
    | none => some (.done s)
    | some exp =>
      match runRow H t row expIdx exp s with
      | .goto row s => runFrom t fuel row 0 s
      | .stop why s => some (.stop why s)
      | .panic => some .panic

/-- The start of `Execute` on what an earlier call left: output and ranges are new, and
`t.RangeValue` points where it did. -/
def State.enter (s : State) : State :=
  { s with
    rangeValue := match s.current with | none => .null | some r => .own r
    rangeStack := []
    deliverFlows := []
    logs := []
    trackErr := [] }

/-- The row and stage of `expIndex`. -/
def parseIndex (s : GoString) : ℤ × ℤ :=
  let index := Strings.split '-' s
  ((index[0]?.bind atoi).getD 0, (index[1]?.bind atoi).getD 0)

theorem parseIndex_formatIndex (i j : ℕ) (hi : i < 2 ^ 63) (hj : j < 2 ^ 63) :
    parseIndex (formatIndex i j) = ((i : ℤ), (j : ℤ)) := by
  have hdash : ∀ n : ℕ, '-' ∉ natDigits n := by
    intro n hn
    exact absurd (Strings.isDigit_of_mem_natDigits hn) (by decide)
  have hsplit : Strings.split '-' (formatIndex i j) =
      [natDigits i, natDigits j] := by
    have happend : formatIndex i j = natDigits i ++ '-' :: natDigits j := by
      simp [formatIndex, itoa]
    rw [happend, Strings.split_append (hdash i), Strings.split_of_notMem (hdash j)]
  simp [parseIndex, hsplit, atoi_natDigits i hi, atoi_natDigits j hj]

def execute (t : Program) (fuel : ℕ) (s : State) : Option Final :=
  runFrom H t fuel (parseIndex s.expIndex).1.toNat (parseIndex s.expIndex).2.toNat s.enter

end

def Template.newRutime (t : Template) (funcCall : Option JsRuntime)
    (outputVars : List (GoString × Option Addr)) (heap : Heap) (js : ℕ) : Program × State :=
  (⟨t.exps, t.indexRun, ⟨t.vars, outputVars, funcCall⟩⟩,
    { heap := heap
      js := js
      varTemp := [[]]
      expInput := some []
      expIndex := "0-0"
      rangeValue := .null
      rangeStack := []
      deliverFlows := []
      logs := []
      trackErr := [] })

end Kairos

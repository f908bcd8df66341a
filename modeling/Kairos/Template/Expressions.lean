import Kairos.Go.Json
import Kairos.Go.Memory
import Kairos.Library.Effects
import Kairos.Template.Compile

/-!
# Expressions

`Expression.Execute` of `pkg/workflow/func.go`, with what it calls. An expression runs on the heap,
the state of the JavaScript runtime and the stack of scopes. It returns its output, an error or
panics. The code prints most of the values that it handles, and `fmt` overflows on a cyclic one;
`printVals` panics there, also where an error shows the value that is at fault.
-/

namespace Kairos

open Effects (Comp Eff)

/-- What an expression works on: the heap, the runtime of the functions, and the scopes. -/
structure Mem where
  heap : Heap
  js : ℕ
  varTemp : VarTemp

abbrev Eval (α : Type) : Type := Comp Mem GoString α

namespace Eval

def onHeap {α : Type} (f : Heap → α × Heap) : Eval α := fun m =>
  .ok (f m.heap).1 { m with heap := (f m.heap).2 }

def onHeap? {α : Type} (f : Heap → Option (α × Heap)) (msg : GoString) : Eval α := fun m =>
  match f m.heap with
  | some r => .ok r.1 { m with heap := r.2 }
  | none => .err msg m

def onScopes (f : VarTemp → Option VarTemp) : Eval Unit := fun m =>
  match f m.varTemp with
  | some vt => .ok () { m with varTemp := vt }
  | none => .panic

end Eval

/-- The output of an expression; `none` is the nil slice. -/
abbrev Out := Option (List Val)

/-- What an expression reads of the template and the request. -/
structure ExecEnv where
  golbalVar : Option Vars
  outputVars : List (GoString × Option Addr)
  funcCall : Option JsRuntime

def Val.kind : Val → Option Kind
  | .nil => none
  | .bool _ => some .bool
  | .float _ => some .float64
  | .int _ => some .int
  | .int64 _ => some .int64
  | .str _ => some .string
  | .slice _ _ => some .slice
  | .map _ _ => some .map
  | .mapPtr _ _ => some .ptr
  | .result _ => some .ptr
  | .foreign v => some v.kind

def Kind.name : Kind → GoString
  | .bool => "bool"
  | .int => "int"
  | .int64 => "int64"
  | .float64 => "float64"
  | .string => "string"
  | .slice => "slice"
  | .map => "map"
  | .ptr => "ptr"
  | .struct => "struct"

def Val.toInt : Val → ℤ
  | .int n => n
  | .int64 n => n
  | .foreign v => v.int
  | _ => 0

def Val.toFloat : Val → Float64
  | .float x => x
  | .foreign v => v.float
  | _ => 0

def Val.toStr : Val → GoString
  | .str s => s
  | .foreign v => v.str
  | _ => []

/-- The test of `if` on one value: everything but the empty string, `false` and `"false"`. -/
def truthy (v : Val) : Bool := v != .str [] && v != .bool false && v != .str "false"

def mpGet (mp : List Kv) (p : GoString) : Val := (lookup mp p).getD .nil

section

variable (H : Host) (env : ExecEnv)

/-- `fmt` on some values: it panics where one nests too deep. -/
def printVals (vs : List Val) : Eval Unit := fun m =>
  if vs.all (m.heap.nests H.printDepth) then .ok () m else .panic

def printScopes : Eval Unit := fun m => printVals H (m.varTemp.flatten.map Kv.value) m

def pushVar (kv : Kv) : Eval Unit := do
  printVals H [kv.value]
  Eval.onScopes (·.push kv)

def setVar (kv : Kv) : Eval Unit := do
  printVals H [kv.value]
  Eval.onScopes (·.set kv)

def outputVar (key : GoString) : Option (Option Addr) :=
  (env.outputVars.find? fun v => v.1 == key).map Prod.snd

def extractValue (p : GoString) : Option Val :=
  match outputVar env (getRootDefaultVar H (bareName p)) with
  | none => none
  | some base => if isRoot p then some (.map .reply base) else none

def paramValue (p : GoString) : Eval Val :=
  if p = "_ping" then Eval.onHeap fun h => (.map .plain (some h.fresh), h.alloc (.map []))
  else if isConstant p then
    let v := getConstVar p
    pure (if Strings.hasPrefix v "\"" then .str (Strings.trim v "()\"")
      else .float (H.parseFloat v))
  else do
    let m ← Comp.get
    match m.varTemp.getValue p with
    | some kv => pure kv.value
    | none =>
      printVals H (env.outputVars.map fun v => .map .reply v.2)
      match extractValue H env p with
      | some v => pure v
      | none =>
        match env.golbalVar with
        -- the method of a nil `*Vars`
        | none => Comp.crash
        | some vs =>
          if vs.exists (bareName p) then pure (.str (vs.value (bareName p)))
          else
            match globalVars p with
            | some v => pure (.str v)
            | none => Comp.fail (errorf "var " p " not ready")

def setValueLoop (mp : List Kv) : List GoString → Eval (List Kv)
  | [] => pure mp
  | p :: ps => do
    let v ← paramValue H env p
    setValueLoop (insertKey mp p v) ps

/-- `setValue`: the parameters with their values. -/
def setValue (ps : List GoString) : Eval (List Kv) := setValueLoop H env [] ps

/-- `convertInterfaceToReply` with an error of the caller. Its own error shows the value. -/
def convertReply (v : Val) (msg : GoString) : Eval (Option Addr) := fun m =>
  match convertInterfaceToReply H v m.heap with
  | some r => .ok r.1 { m with heap := r.2 }
  | none => if m.heap.nests H.printDepth v then .err msg m else .panic

/-- A value as a `ReplyData`, by assertion or through json. -/
def asReply (v : Val) (msg : GoString) : Eval (Option Addr) :=
  match v with
  | .map .reply base => pure base
  | _ => convertReply H v msg

def asArray (v : Val) (msg : GoString) : Eval (Option Addr × ℕ) :=
  match v with
  | .slice base len => pure (base, len)
  | _ => Eval.onHeap? (convertInterfaceToArray H v) msg

def replyError (h : Heap) (v : Val) : GoString :=
  errorf "err: " H.jsonError " , value: " ++ H.showVal h v

def toReply (v : Val) : Eval (Option Addr) := do
  let m ← Comp.get
  convertReply H v (replyError H m.heap v)

/-! ## The cases of the switch -/

/-- `if` and `elseif`. Other numbers of parameters leave no value: `if` opens one more scope,
`elseif` clears the innermost. -/
def execIf (isIf : Bool) (ps : List GoString) : Eval Out :=
  match ps with
  | [_, a, b] => do
    let mp ← setValue H env [a, b]
    let m ← Comp.get
    pure (some [.bool (deepEqual m.heap (mpGet mp a) (mpGet mp b))])
  | [a] => do
    let mp ← setValue H env [a]
    pure (some [.bool (truthy (mpGet mp a))])
  | [op, a] => do
    let mp ← setValue H env [a]
    if op = "ne" then pure (some [.bool (!truthy (mpGet mp a))]) else noCondition
  | _ => noCondition
where
  noCondition : Eval Out := do
    Eval.onScopes fun vt => some (if isIf then vt.append else vt.clearTop.getD vt)
    pure none

def execGet (func : GoString) (ps : List GoString) (input : List Val) : Eval Out := do
  printScopes H
  let mp ← setValue H env ps
  match ps with
  | [] => Comp.crash
  | p :: rest =>
    let (source, get) ← (do
      match rest with
      | [] =>
        match input with
        | [] => Comp.fail (func ++ " has no value")
        | v :: _ =>
          let base ← asReply H v (errorf "input exp " func " is not map")
          pure (base, p)
      | q :: _ =>
        let base ← asReply H (mpGet mp p) (errorf "expression " func " param invalid type")
        pure (base, q))
    match mpGet mp get with
    | .str key => do
      let m ← Comp.get
      pure (some [mpGet (m.heap.mapEntries source) key])
    | _ => Comp.fail (errorf "var " p " has no value")

/-- `getp`. With two parameters it reads the input as well, if any. -/
def execGetp (func : GoString) (ps : List GoString) (input : List Val) : Eval Out := do
  let mp ← setValue H env ps
  match ps with
  | [] => Comp.crash
  | p :: rest =>
    let v ← (match input, rest with
      | v :: _, _ => pure v
      | [], [] => Comp.fail (func ++ " has no value")
      | [], _ :: _ => Comp.crash)
    let (base, len) ← asArray H v (errorf "input exp " func " is not array")
    match mpGet mp (rest.headD p) with
    | .int n =>
      let m ← Comp.get
      if 0 ≤ n then
        match (m.heap.elems base len)[n.toNat]? with
        | some v => pure (some [v])
        | none => Comp.crash
      else Comp.crash
    | _ => Comp.fail (errorf "var " p " has no value")

def execSet (ps : List GoString) (input : List Val) : Eval Out :=
  match ps with
  | [] => Comp.crash
  | [x] =>
    match input with
    | [] => Comp.fail "set has no value"
    | v :: _ => do
      setVar H ⟨x, v⟩
      pure (some [v])
  | x :: y :: rest => do
    let mp ← setValue H env (y :: rest)
    setVar H ⟨x, mpGet mp y⟩
    pure (some [mpGet mp y])

def execSend (func : GoString) (ps : List GoString) (input : List Val) : Eval Out :=
  match ps with
  | [] => Comp.crash
  | p :: rest => do
    let v ← (match rest, input with
      | [], [] => Comp.fail (errorf "expression " func " has no value to send")
      | [], v :: _ => pure v
      | _ :: _, _ => do
        let mp ← setValue H env [p]
        pure (mpGet mp p))
    if v = .nil then
      Comp.fail (errorf "expression " func ": can't send nil value, var " ++ p)
    else
      let m ← Comp.get
      let base ← convertReply H v
        (errorf "Can't send " p ", it must be default alias err =" ++ replyError H m.heap v)
      pure (some [.mapPtr .reply base])

def execSendsync (ps : List GoString) (input : Out) : Eval Out :=
  match ps with
  | [] => Comp.crash
  | [_] => pure input
  | p :: _ => do
    let mp ← setValue H env [p]
    pure (some [mpGet mp p])

def execWait (ps : List GoString) : Eval Out := do
  let _ ← setValue H env ps
  pure none

/-- `waite`, which also asks for the first result to be finished. Any string in `finish` passes. -/
def execWaite (ps : List GoString) : Eval Out := do
  let mp ← setValue H env ps
  match ps with
  | [] => Comp.crash
  | p :: _ =>
    match mpGet mp p with
    | .map .reply base =>
      let m ← Comp.get
      match mpGet (m.heap.mapEntries base) "result" with
      | .nil => Comp.fail "invalid reply data, nil result"
      | .result r => if r.finishedAt = 0 then Comp.fail "unfinished" else pure none
      | .map .plain base =>
        match mpGet (m.heap.mapEntries base) "finish" with
        | .bool true => pure none
        | .str _ => pure none
        | _ => Comp.fail "unfinished"
      | _ => Comp.fail "invalid result"
    | _ => Comp.fail "can't convert to reply"

/-- One round of `parse`: the text of an object, an array or an integer becomes that value. -/
def parseItem (v : Val) (h : Heap) : Val × Heap :=
  match v with
  | .str s =>
    match (H.jsonText s).bind fun j => decodeReply H j h with
    | some (base, h) => (.map .reply base, h)
    | none =>
      match (H.jsonText s).bind fun j => decodeArray H j h with
      | some ((base, len), h) => (.slice base len, h)
      | none =>
        match Strings.atoi s with
        | some n => (.int n, h)
        | none => (v, h)
  | _ => (v, h)

def parseItems : List Val → Heap → List Val × Heap
  | [], h => ([], h)
  | v :: vs, h =>
    ((parseItem H v h).1 :: (parseItems vs (parseItem H v h).2).1,
      (parseItems vs (parseItem H v h).2).2)

def execParse (ps : List GoString) (input : List Val) : Eval Out := do
  let mp ← setValue H env ps
  let vs ← Eval.onHeap (parseItems H (input ++ ps.map (mpGet mp)))
  pure (some vs)

/-- The loops of `merge`: values of a kind that goes with the first are folded, and any other ends
the loop, with `after` in the message (none where it cannot be printed). -/
def mergeFold {α : Type} (first : Kind) (same : Kind → Bool) (after : Val → Option GoString)
    (add : α → Val → α) : α → List Val → Res α
  | acc, [] => .ok acc
  | acc, v :: vs =>
    match v.kind with
    -- the `Kind` of a nil type
    | none => .panic
    | some k =>
      if same k then mergeFold first same after add (add acc v) vs
      else
        match after v with
        | some text => .err ("can't merge type " ++ first.name ++ errorf " and " k.name "" ++ text)
        | none => .panic

def Heap.entriesOf (h : Heap) : Val → List Kv
  | .map _ base => h.mapEntries base
  | _ => []

def merge (input : List Val) : Eval Val :=
  match input with
  | [] => Comp.fail "merge: empty input"
  | v :: _ =>
    match v.kind with
    | none => Comp.crash
    | some .float64 => fun m =>
      lift m <| (mergeFold .float64 (· == .float64)
        (fun v => if m.heap.nests H.printDepth v then some (" value=" ++ H.showVal m.heap v)
          else none)
        (fun x v => H.add x v.toFloat) .zero input).bind fun x => .ok (.float x)
    | some .int => fun m => lift m (mergeInts .int)
    | some .int64 => fun m => lift m (mergeInts .int64)
    | some .string => fun m =>
      lift m <| (mergeFold .string (· == .string) (fun _ => some []) (fun s v => s ++ v.toStr) []
        input).bind fun s => .ok (.str s)
    | some .slice => fun m =>
      match mergeFold .slice (· == .slice) (fun _ => some []) (fun vs v => vs ++ [v]) [] input with
      | .ok vs => .ok (allocSlice H vs m.heap).1 { m with heap := (allocSlice H vs m.heap).2 }
      | .err msg => .err msg m
      | .panic => .panic
    | some .map => fun m =>
      match mergeFold .map (· == .map) (fun _ => some [])
          (fun es v => (m.heap.entriesOf v).foldl (fun es e => insertKey es e.key e.value) es) []
          input with
      | .ok es => .ok (.map .any (some m.heap.fresh)) { m with heap := m.heap.alloc (.map es) }
      | .err msg => .err msg m
      | .panic => .panic
    | some k => Comp.fail (errorf "merge not support type " k.name "")
where
  lift (m : Mem) : Res Val → Eff Mem GoString Val
    | .ok v => .ok v m
    | .err msg => .err msg m
    | .panic => .panic
  mergeInts (first : Kind) : Res Val :=
    (mergeFold first (fun k => k == .int || k == .int64) (fun _ => some [])
      (fun n v => wrap64 (n + v.toInt)) 0 input).bind fun n => .ok (.int64 n)

def execMerge (ps : List GoString) (input : List Val) : Eval Out := do
  let mp ← setValue H env ps
  let v ← merge H (input ++ ps.map (mpGet mp))
  pure (some [v])

/-- The key of `put` and `delete`, which has to be a string. -/
def stringKey (mp : List Kv) (p : GoString) (between : String) : Eval GoString :=
  match mpGet mp p with
  | .str key => pure key
  | v => do
    printVals H [v]
    let m ← Comp.get
    Comp.fail (errorf "exp put: " p between ++ H.showVal m.heap v)

def execDelete (ps : List GoString) (input : List Val) : Eval Out := do
  let mp ← setValue H env ps
  match ps with
  | [x, k] =>
    let base ← toReply H (mpGet mp x)
    let key ← stringKey H mp k " is not string "
    finish base key
  | _ =>
    match input with
    | [] => Comp.crash
    | v :: _ =>
      let base ← toReply H v
      match ps with
      | [] => Comp.crash
      | k :: _ =>
        let key ← stringKey H mp k " is not string "
        finish base key
where
  finish (base : Option Addr) (key : GoString) : Eval Out :=
    Eval.onHeap fun h =>
      (some [.map .reply base],
        match base with
        | none => h
        | some a => h.set a (.map (eraseKey (h.entries a) key)))

def execPop (func : GoString) (input : List Val) : Eval Out :=
  match input with
  | [] => Comp.fail "can't pop empty"
  | v :: _ => do
    let (base, len) ← asArray H v (errorf "input exp " func " is not array")
    if len = 0 then Comp.fail "can't pop array empty"
    else pure (some [.slice base (len - 1)])

def execPush (func : GoString) (ps : List GoString) (input : List Val) : Eval Out := do
  let mp ← setValue H env ps
  match ps with
  | [] => Comp.crash
  | p :: rest =>
    let ((base, len), get) ← (do
      match rest with
      | [] =>
        match input with
        | [] => Comp.fail (func ++ " has no value")
        | v :: _ =>
          let source ← asArray H v (errorf "input exp " func " is not array")
          pure (source, mpGet mp p)
      | q :: _ =>
        let source ← (match mpGet mp p with
          | .slice base len => pure (base, len)
          | _ => Eval.onHeap? (convertInterfaceToArray H (.str p))
            (errorf "input exp " func " is not array"))
        pure (source, mpGet mp q))
    let v ← Eval.onHeap (appendVal H base len get)
    pure (some [v])

def execPrintf (ps : List GoString) : Eval Out := do
  let mp ← setValue H env ps
  match ps with
  | [] => Comp.crash
  | p :: rest =>
    match mpGet mp p with
    | .str format =>
      printVals H (H.printed format (rest.map (mpGet mp)))
      let m ← Comp.get
      pure (some [.str (H.sprintf m.heap format (rest.map (mpGet mp)))])
    | _ => Comp.crash

def execDefine (ps : List GoString) : Eval Out :=
  match ps with
  | x :: ty :: _ =>
    if ty = "map" then do
      let a ← Eval.onHeap fun h => (h.fresh, h.alloc (.map []))
      pushVar H ⟨x, .map .plain (some a)⟩
      pure (some [.mapPtr .plain (some a)])
    else if ty = "array" then do
      let a ← Eval.onHeap fun h => (h.fresh, h.alloc (.arr []))
      pushVar H ⟨x, .slice (some a) 0⟩
      pure (some [.slice (some a) 0])
    else if ty = "string" then do
      pushVar H ⟨x, .str []⟩
      pure (some [.str []])
    else if ty = "number" then do
      pushVar H ⟨x, .float .zero⟩
      pure none
    else pure none
  | _ => Comp.crash

def execPut (func : GoString) (ps : List GoString) (input : List Val) : Eval Out := do
  let mp ← setValue H env ps
  match ps with
  | [x, k, v] =>
    let base ← toReply H (mpGet mp x)
    let key ← stringKey H mp k " is not string value= "
    finish base key (mpGet mp v)
  | [k, v] =>
    match input with
    | [] => Comp.fail (errorf "exp " func ": can't put nil value")
    | x :: _ =>
      let base ← toReply H x
      let key ← stringKey H mp k " is not string value= "
      finish base key (mpGet mp v)
  | [] => Comp.crash
  | p :: _ => Comp.fail (errorf "exp put: " p " empty queue or value")
where
  finish (base : Option Addr) (key : GoString) (v : Val) : Eval Out :=
    match base with
    | none => Comp.crash
    | some a => Eval.onHeap fun h =>
      (some [.map .reply (some a)], h.set a (.map (insertKey (h.entries a) key v)))

def execReturn (ps : List GoString) (input : Out) : Eval Out :=
  if ps = [] then
    match input with
    | none => pure (some [.slice none 0])
    | some vs => Eval.onHeap fun h =>
      (some [.slice (some h.fresh) vs.length], h.alloc (.arr vs))
  else do
    let mp ← setValue H env ps
    pure (some (ps.map (mpGet mp)))

def subtract (v w : Val) : Res Val :=
  match v, w with
  | .int m, .int n => .ok (.int (wrap64 (m - n)))
  | .float x, .float y => .ok (.float (H.sub x y))
  | .int _, _ => mismatch
  | .float _, _ => mismatch
  | _, _ => .err ("Unsupported type: " ++ H.typeName v)
where
  mismatch : Res Val := .err
    ("Type mismatch: " ++ H.typeName v ++ errorf " and " (H.typeName w) "")

def execSub (func : GoString) (ps : List GoString) (input : List Val) : Eval Out :=
  match ps with
  | [a, b] => finish (.str a) (.str b)
  | [b] =>
    match input with
    | [] => Comp.crash
    | v :: _ => finish v (.str b)
  | _ =>
    match input with
    | v :: w :: _ => finish v w
    | _ => Comp.fail (errorf "exp " func ": invalid params")
where
  finish (v w : Val) : Eval Out := fun m =>
    match subtract H v w with
    | .ok r => .ok (some [r]) m
    | .err msg => .err msg m
    | .panic => .panic

/-- `range`: a map where the value converts to one, and otherwise an array. -/
def execRange (func : GoString) (ps : List GoString) : Eval Out :=
  match ps with
  | [] => Comp.crash
  | p :: _ => do
    let mp ← setValue H env [p]
    let iter := mpGet mp p
    printVals H [iter]
    let m ← Comp.get
    match convertInterfaceToReply H iter m.heap with
    | some (base, h) => do
      Eval.onHeap fun _ => ((), h)
      pure (some [.mapPtr .reply base])
    | none => do
      let (base, len) ← Eval.onHeap? (convertInterfaceToArray H iter)
        (errorf "exp " func " invalid param " ++ H.showVal m.heap iter)
      printScopes H
      pure (some [.slice base len])

def execFunc (func : GoString) (ps : List GoString) (input : List Val) : Eval Out :=
  match env.funcCall with
  | none => Comp.fail (errorf "expression '" func "' not found")
  | some js =>
    if js.get func ≠ some true then Comp.fail (errorf "expression '" func "' not define")
    else do
      let mp ← setValue H env ps
      printScopes H
      let params := input ++ ps.map (mpGet mp)
      printVals H params
      let r ← call js params
      match r with
      | .error msg => Comp.fail msg
      -- the `Kind` of a nil type
      | .nilType => Comp.crash
      | .object fields =>
        let a ← Eval.onHeap fun h =>
          (h.fresh, h.alloc (.map (fields.foldl (fun es e => insertKey es e.key e.value) [])))
        pure (some [.map .plain (some a)])
      | .number v => pure (some [v])
      | .string v => pure (some [v])
      | .other kind => Comp.fail (errorf "exp " func ": can't support return type " ++ kind)
where
  call (js : JsRuntime) (params : List Val) : Eval JsReturn := fun m =>
    .ok (js.call func params m.heap m.js).1
      { m with
        heap := (js.call func params m.heap m.js).2.1
        js := (js.call func params m.heap m.js).2.2 }

/-- `execute`: the case for the keyword, or the user's function. -/
def Expression.execute (e : Expression) (input : Out) : Eval Out :=
  match e.keyword with
  | some .ifExp => execIf H env true e.params
  | some .elseifExp => execIf H env false e.params
  | some .getExp => execGet H env e.func e.params (input.getD [])
  | some .getpExp => execGetp H env e.func e.params (input.getD [])
  | some .setExp => execSet H env e.params (input.getD [])
  | some .send => execSend H env e.func e.params (input.getD [])
  | some .sendu => execSend H env e.func e.params (input.getD [])
  | some .waitExp => execWait H env e.params
  | some .waiteExp => execWaite H env e.params
  | some .parseExp => execParse H env e.params (input.getD [])
  | some .mergeExp => execMerge H env e.params (input.getD [])
  | some .deleteExp => execDelete H env e.params (input.getD [])
  | some .popExp => execPop H e.func (input.getD [])
  | some .pushExp => execPush H env e.func e.params (input.getD [])
  | some .printfExp => execPrintf H env e.params
  | some .sendsync => execSendsync H env e.params input
  | some .define => execDefine H e.params
  | some .putExp => execPut H env e.func e.params (input.getD [])
  | some .returnExp => execReturn H env e.params input
  | some .elseExp => pure none
  | some .endExp => pure none
  | some .subExp => execSub H e.func e.params (input.getD [])
  | some .rangeExp => execRange H env e.func e.params
  | some .breakExp => execFunc H env e.func e.params (input.getD [])
  | none => execFunc H env e.func e.params (input.getD [])

end

end Kairos

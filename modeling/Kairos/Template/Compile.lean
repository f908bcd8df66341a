import Kairos.Library.Matching
import Kairos.Template.Syntax

/-!
# The template compiler

`Template.Build` of `pkg/workflow/template.go`. `parse` reads the text into rows, each compiled by
`complieChainExps` against the open scopes, and counts the blocks. `build` matches the rows on a
stack of its own and fills `IndexRun`, the table of jumps. `ListenVars`, which nothing fills, and
the cache `Call` of `FuncCall` are left out.
-/

namespace Kairos

/-- The fields `Input` and `Vars`, and the flag that makes an unknown function an error. -/
structure CompileEnv where
  input : List GoString
  vars : Option Vars
  funcs : Option JsRuntime
  restrict : Bool

def errorf (before : String) (s : GoString) (after : String) : GoString :=
  before.toList ++ s ++ after.toList

def showStrings (items : List GoString) : GoString :=
  "[" ++ Strings.join " " items ++ "]"

/-- `checkValidParam`: the first constant, user variable or listened name ends the check. `all` is
the whole list, for the message. -/
def checkParams (env : CompileEnv) (vt : VarTemp) (all : List GoString) : List GoString → Res Unit
  | [] => .ok ()
  | e :: items =>
    if !isVariable e then
      if isConstant e then .ok () else .err (errorf "params " e ": is not const")
    else if env.vars.any fun vs => vs.exists (bareName e) then .ok ()
    else if env.input.contains (bareName e) then .ok ()
    else if !vt.existIn e then
      .err (all.headD [] ++ errorf ": stack err, variable = " e " has not define at " ++
        showStrings all)
    else checkParams env vt all items

def checkValidParam (env : CompileEnv) (items : List GoString) (vt : VarTemp) : Res Unit :=
  checkParams env vt items items

/-- What `complieChainExps` changes from stage to stage. -/
structure RowState where
  varTemps : VarTemp
  exps : Row
  opened : ℤ
  funcNotFound : List GoString

inductive StageEnd where
  | next (st : RowState)
  /-- The row is given up with `return nil, 0, nil`, for an undefined function. -/
  | drop (st : RowState)

namespace RowState

def keep (st : RowState) (w : GoString) (ps : List GoString) : Res StageEnd :=
  .ok (.next { st with exps := st.exps ++ [⟨w, ps⟩] })

def bindVar (st : RowState) (key : GoString) : Res RowState :=
  match st.varTemps.push ⟨key, .nil⟩ with
  | some vt => .ok { st with varTemps := vt }
  | none => .panic

def clearTop (st : RowState) : Res RowState :=
  match st.varTemps.clearTop with
  | some vt => .ok { st with varTemps := vt }
  | none => .err "stack empty"

def pop (st : RowState) : Res RowState :=
  match st.varTemps.pop with
  | some vt => .ok { st with varTemps := vt }
  | none => .err "stack empty"

def openMore (st : RowState) : RowState := { st with opened := st.opened + 1 }

def notFound (st : RowState) (name : GoString) : RowState :=
  { st with funcNotFound := st.funcNotFound ++ [name] }

end RowState

def pipelineError (w : GoString) : GoString := errorf "exp: " w " cannot use as pipeline"

section

variable (H : Host) (env : CompileEnv)

/-- The check of a condition's word. -/
def findCondition (p : GoString) : Res Bool :=
  match env.funcs with
  | none => .ok true
  | some js =>
    if compareExp.contains p || funcBuildin.contains p || isVariable p then .ok true
    else
      match js.get p with
      | none => if env.restrict then .err (errorf "exp " p ": not exist") else .ok false
      | some false => .err (js.exportError p)
      | some true => .ok true

/-- `if` opens a block, and `elseif` starts over in the scope of the clause before it. -/
def complieIf (idx : ℕ) (w : GoString) (ps : List GoString) (st : RowState) : Res StageEnd :=
  if 0 < idx then .err (pipelineError w)
  else
    match ps with
    | [] => .err (errorf "exp: " w " empty")
    | p :: rest =>
      findCondition env p >>= fun found =>
        if !found then .ok (.drop (st.notFound w))
        else
          checkValidParam env rest st.varTemps >>= fun _ =>
            (if w = Keyword.ifExp.name then .ok { st with opened := 1 } else st.clearTop) >>=
              fun st =>
              st.keep w ps

/-- A name that is no keyword, with a parameter or without a runtime. -/
def complieFunc (w : GoString) (ps : List GoString) (st : RowState) : Res StageEnd :=
  match env.funcs with
  | some js =>
    match js.get w with
    | none =>
      if env.restrict then .err (errorf "expression '" w "': not exist")
      else .ok (.drop (st.notFound w))
    | some false => .err (js.exportError w)
    | some true => st.keep w ps
  | none =>
    if env.restrict then .err (errorf "expression '" w "' is not define")
    else (st.notFound w).keep w ps

def complieSwitch (idx : ℕ) (w : GoString) (ps : List GoString) (st : RowState) : Res StageEnd :=
  match keyword w with
  | some .ifExp => complieIf env idx w ps st
  | some .elseifExp => complieIf env idx w ps st
  | some .elseExp =>
    if idx ≠ 0 ∨ ps ≠ [] then .err (errorf "exp: " w " error")
    else do
      let st ← st.clearTop
      st.keep w ps
  | some .endExp =>
    if ps ≠ [] then .err (errorf "exp " w ": no params")
    else do
      let st ← st.pop
      { st with opened := st.opened - 1 }.keep w ps
  | some .setExp =>
    match ps with
    | [x, _] => do
      let st ← st.bindVar (H.toLower x)
      st.keep w ps
    | _ => .err (errorf "exp " w ": invalid params")
  | some .define =>
    match ps with
    | [x, ty] =>
      if ["map".toList, "array".toList, "number".toList, "string".toList].contains ty then do
        let st ← st.bindVar (H.toLower x)
        st.keep w ps
      else .err (errorf "exp " w ": not support type " ++ ty)
    | _ => .err (errorf "exp " w ": invalid params")
  | some .rangeExp =>
    if 0 < idx then .err (pipelineError w)
    else
      match ps with
      -- `c[1:2]` of a stage of one word is out of its capacity
      | [] => .panic
      | p :: rest => do
        checkValidParam env [p] st.varTemps
        let key ← Res.ofOption rest[0]?
        let st ← st.bindVar key
        let value ← Res.ofOption rest[1]?
        let st ← st.bindVar value
        st.openMore.keep w ps
  | some .subExp => complieSub
  | some .mergeExp => complieSub
  | some .parseExp =>
    if idx = 0 ∧ ps = [] then .err (errorf "exp: " w " invalid params") else st.keep w ps
  | some .breakExp =>
    if 0 < idx then .err (pipelineError w)
    else do
      let st ← st.pop
      st.keep w ps
  | some .waitExp => complieWait
  | some .waiteExp => complieWait
  | some .printfExp =>
    match ps with
    | [] => .panic
    | p :: _ =>
      if isConstant p then st.keep w ps else .err (errorf "params " p ": is not const")
  | some .send => complieSend
  | some .sendu => complieSend
  | some .sendsync => complieSend
  | some .getExp => complieAccess
  | some .putExp => complieAccess
  | some .deleteExp => complieAccess
  | some .popExp => complieAccess
  | some .getpExp => complieAccess
  | some .returnExp => st.keep w ps
  | some .pushExp => st.openMore.keep w ps
  | none => complieFunc env w ps st
where
  complieSub : Res StageEnd :=
    if idx = 0 ∧ ps.length = 1 then .err (errorf "exp: " w " invalid params")
    else do
      checkValidParam env ps st.varTemps
      st.openMore.keep w ps
  complieWait : Res StageEnd :=
    match ps.find? fun e => !env.input.contains (bareName e) && !Strings.hasSuffix e subChannel &&
        !Strings.hasSuffix e subTask with
    | some e => .err (errorf "exp: " w " invalid param " ++ e)
    | none => do
      let p ← Res.ofOption ps[0]?
      let st ← st.bindVar p
      { st.openMore with varTemps := st.varTemps.append }.keep w ps
  /-- `send`, `sendu` and `sendsync`. `checkValidParam` gets `c[1:1]`, and the loop over the
  receivers does nothing. -/
  complieSend : Res StageEnd :=
    if ps.length = 0 ∨ 2 < ps.length then .err (errorf "exp: " w " invalid params")
    else do
      checkValidParam env [] st.varTemps
      st.keep w ps
  complieAccess : Res StageEnd :=
    if ps = [] then .err (errorf "exp: " w " missing param")
    else do
      checkValidParam env ps st.varTemps
      st.openMore.keep w ps

/-- The check of a variable that is a stage by itself, made for the first stage only. -/
def checkFirst (idx : ℕ) (w : GoString) (vt : VarTemp) : Res Unit :=
  if idx = 0 then
    match checkValidParam env [w] vt with
    | .err msg => .err (msg ++ " exp_num = " ++ Strings.itoa idx)
    | r => r
  else .ok ()

/-- One stage of the pipeline; a variable alone is a `set`. -/
def complieStage (idx : ℕ) (c : List GoString) (st : RowState) : Res StageEnd :=
  match c with
  -- `c[0]` of a stage without words
  | [] => .panic
  | [w] =>
    if isVariable w then do
      checkFirst env idx w st.varTemps
      let st ← st.bindVar (H.toLower w)
      st.keep Keyword.setExp.name [w]
    else if funcCanEmptyInput.contains w then complieSwitch H env idx w [] st
    else
      match env.funcs with
      | some js =>
        if js.get w = some true then st.keep w []
        else if env.restrict then .err (errorf "expression '" w "' not define, can't find")
        else (st.notFound w).keep w []
      | none => complieSwitch H env idx w [] st
  | w :: ps => complieSwitch H env idx w ps st

def complieStages : ℕ → List (List GoString) → RowState → Res StageEnd
  | _, [], st => .ok (.next st)
  | idx, c :: cs, st =>
    complieStage H env idx c st >>= fun r =>
      match r with
      | .drop st => .ok (.drop st)
      | .next st => complieStages (idx + 1) cs st

end

/-- The items of a row cut at each `|`, with `buf` the words being read. A stage without words is
kept, except at the end. -/
def chainFrom (buf : List GoString) : List GoString → List (List GoString)
  | [] => if buf = [] then [] else [buf]
  | e :: items =>
    if e = "|" then buf :: chainFrom [] items else chainFrom (buf ++ [e]) items

/-- What `complieChainExps` returns, with the scopes and names it has changed. -/
structure CompiledRow where
  exps : Row
  opened : ℤ
  varTemps : VarTemp
  funcNotFound : List GoString

def complieChainExps (H : Host) (env : CompileEnv) (items : List GoString) (vt : VarTemp)
    (notFound : List GoString) : Res CompiledRow :=
  complieStages H env 0 (chainFrom [] items) ⟨vt, [], 0, notFound⟩ >>= fun r =>
    match r with
    | .drop st => .ok ⟨[], 0, st.varTemps, st.funcNotFound⟩
    | .next st =>
      if 0 < st.opened then .ok ⟨st.exps, 1, st.varTemps.append, st.funcNotFound⟩
      else .ok ⟨st.exps, st.opened, st.varTemps, st.funcNotFound⟩

def expItems (H : Host) (exp : GoString) : List GoString :=
  (Strings.findAllItems exp).map fun e =>
    if isVariable e || Strings.hasPrefix e "(" then H.toLower e else e

def compileExp (H : Host) (env : CompileEnv) (exp : GoString) (vt : VarTemp)
    (notFound : List GoString) : Res CompiledRow :=
  let exp := Strings.trim exp " "
  if exp = [] then .err "empty expression "
  else complieChainExps H env (expItems H exp) vt notFound

/-- The variables of `Parse`'s loop; `rows` are the expressions and how many blocks each opens. -/
structure ParseState where
  opened : ℤ
  closed : ℤ
  expStr : GoString
  varTemps : VarTemp
  openExp : ℤ
  rows : List (Row × ℤ)
  funcNotFound : List GoString

def ParseState.start : ParseState := ⟨1, 1, [], [[]], 0, [], []⟩

section

variable (H : Host) (env : CompileEnv)

/-- `Parse` at the closing braces of an expression. -/
def parseExp (st : ParseState) : Res ParseState := do
  let row ← compileExp H env st.expStr st.varTemps st.funcNotFound
  let openExp := st.openExp + row.opened
  if openExp < 0 then .err (errorf "redundancy end " st.expStr "")
  else
    .ok { st with
      varTemps := row.varTemps
      rows := st.rows ++ [(row.exps, row.opened)]
      openExp := openExp
      funcNotFound := row.funcNotFound
      expStr := [] }

/-- One character of `Parse`'s loop. -/
def parseChar (st : ParseState) (c : Char) : Res ParseState :=
  if c = '\x7b' then
    let st := { st with expStr := [], opened := st.opened + 1 }
    if 2 < st.opened - st.closed then .err "redundancy \x7b "
    else if st.opened - st.closed < 0 then .err "missing sign \x7b "
    else .ok st
  else if c = '\x7d' then
    let st := { st with closed := st.closed + 1 }
    if st.opened - st.closed < 0 then .err "missing sign \x7b "
    else if st.opened = st.closed ∧ st.expStr ≠ [] then parseExp H env st
    else .ok st
  else if st.opened - st.closed ≠ 2 ∧ Strings.trimSpace st.expStr ≠ [] then
    .err (errorf "'" st.expStr "' invalid \x7b ")
  else .ok { st with expStr := st.expStr ++ [c] }

def parseLoop : GoString → ParseState → Res ParseState
  | [], st => .ok st
  | c :: s, st => parseChar H env st c >>= parseLoop s

def parse (s : GoString) : Res ParseState := do
  let st ← parseLoop H env s .start
  if 0 < st.opened - st.closed then .err "missing \x7d"
  else if st.openExp ≠ 0 then .err "missing end"
  else .ok st

end

/-! ## The table of jumps -/

/-- `OPEN_EXP` opens a block, `elseif`, `else` and `break` divide one, and `end` closes one. -/
abbrev Mark := Matching.Bracket

/-- What the keyword is to the loop that pairs the blocks. -/
def Expression.mark (e : Expression) : Option Mark :=
  if e.isOpen then some .opens
  else if e.is .elseifExp || e.is .elseExp || e.is .breakExp then some .divides
  else if e.is .endExp then some .closes
  else none

def rowMark (row : Row) : Option Mark := row.findSome? Expression.mark

abbrev IndexRun := ℕ → Option ℕ

def stackEmpty : GoString := "stack is empty"

/-- The loop of `Build` from row `idx` on, with the stack of the rows that wait for their target. -/
def buildLoop : ℕ → List Row → List ℕ → IndexRun → Res (List ℕ × IndexRun)
  | _, [], stack, ir => .ok (stack, ir)
  | idx, row :: rows, stack, ir =>
    match rowMark row with
    | none => buildLoop (idx + 1) rows stack ir
    | some .opens => buildLoop (idx + 1) rows (idx :: stack) ir
    | some .divides =>
      match stack with
      | [] => .err stackEmpty
      | jum :: stack =>
        buildLoop (idx + 1) rows (idx :: stack) (Function.update ir jum (some idx))
    | some .closes =>
      match stack with
      | [] => .err stackEmpty
      | jum :: stack => buildLoop (idx + 1) rows stack (Function.update ir jum (some idx))

structure Template where
  vars : Option Vars
  input : List GoString
  exps : List Row
  indexRun : IndexRun
  funcNotFound : List GoString

def build (H : Host) (funcs : Option JsRuntime) (input : List GoString) (s : GoString)
    (vars : Option Vars) (restrict : Bool) : Res Template := do
  let st ← parse H ⟨input, vars, funcs, restrict⟩ s
  let exps := st.rows.map Prod.fst
  let (_, ir) ← buildLoop 0 exps [] fun _ => none
  .ok ⟨vars, input, exps, ir, st.funcNotFound⟩

end Kairos

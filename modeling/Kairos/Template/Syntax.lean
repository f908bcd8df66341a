import Kairos.Go.Values

/-!
# The vocabulary of templates

The words of `pkg/workflow/template.go` and `pkg/workflow/workflow.go`: the names of the
expressions, the lists that they are looked up in, the suffixes of names, and the variables that a
broker may read.
-/

namespace Kairos

open Strings (hasSuffix trimSuffix hasPrefix)

/-- The names with a meaning. Any other is that of a user's function. -/
inductive Keyword where
  | ifExp
  | elseExp
  | elseifExp
  | setExp
  | subExp
  | mergeExp
  | rangeExp
  | getExp
  | getpExp
  | putExp
  | pushExp
  | deleteExp
  | popExp
  | parseExp
  | send
  | sendu
  | sendsync
  | waitExp
  | waiteExp
  | endExp
  | breakExp
  | returnExp
  | define
  | printfExp
deriving DecidableEq

namespace Keyword

def name : Keyword → GoString
  | ifExp => "if"
  | elseExp => "else"
  | elseifExp => "elseif"
  | setExp => "set"
  | subExp => "sub"
  | mergeExp => "merge"
  | rangeExp => "range"
  | getExp => "get"
  | getpExp => "getp"
  | putExp => "put"
  | pushExp => "push"
  | deleteExp => "delete"
  | popExp => "pop"
  | parseExp => "parse"
  | send => "send"
  | sendu => "sendu"
  | sendsync => "sendsync"
  | waitExp => "wait"
  | waiteExp => "waite"
  | endExp => "end"
  | breakExp => "break"
  | returnExp => "return"
  | define => "define"
  | printfExp => "printf"

def all : List Keyword :=
  [ifExp, elseExp, elseifExp, setExp, subExp, mergeExp, rangeExp, getExp, getpExp, putExp, pushExp,
    deleteExp, popExp, parseExp, send, sendu, sendsync, waitExp, waiteExp, endExp, breakExp,
    returnExp, define, printfExp]

end Keyword

def keyword (s : GoString) : Option Keyword := Keyword.all.find? fun k => k.name == s

@[simp] theorem keyword_name (k : Keyword) : keyword k.name = some k := by
  cases k <;> decide

variable {k : Keyword}

theorem keyword_eq_some {s : GoString} : keyword s = some k ↔ s = k.name := by
  constructor
  · intro h
    have hp := List.find?_some h
    exact (beq_iff_eq.mp hp).symm
  · rintro rfl
    exact keyword_name k

def openExp : List Keyword :=
  [.mergeExp, .rangeExp, .putExp, .deleteExp, .popExp, .ifExp, .getExp, .pushExp, .waitExp,
    .waiteExp]

/-- The words of a condition's comparison. -/
def compareExp : List GoString :=
  ["eq", "ne", "lt", "le", "gt", "ge"]

def funcBuildin : List GoString := [Keyword.subExp.name, Keyword.mergeExp.name]

/-- The keywords that may stand alone in a stage. -/
def funcCanEmptyInput : List GoString :=
  [Keyword.elseExp.name, Keyword.endExp.name, Keyword.returnExp.name, Keyword.parseExp.name]

/-- One stage of a row. Its `Input` is a parameter of `Expression.execute`. -/
structure Expression where
  func : GoString
  params : List GoString
deriving DecidableEq

def Expression.keyword (e : Expression) : Option Keyword := Kairos.keyword e.func

def Expression.isOpen (e : Expression) : Bool := e.keyword.any openExp.contains

def Expression.is (e : Expression) (k : Keyword) : Bool := e.keyword == some k

variable {e : Expression}

theorem Expression.is_iff : e.is k ↔ e.keyword = some k := by
  simp [Expression.is]

variable {k' : Keyword}

theorem Expression.is_inj (h : e.is k) (h' : e.is k') : k = k' :=
  Option.some.inj ((Expression.is_iff.mp h).symm.trans (Expression.is_iff.mp h'))

theorem Expression.not_is (h : e.is k) (hne : k ≠ k') : e.is k' = false := by
  rw [Expression.is_iff] at h
  simp [Expression.is, h, hne]

/-- A pipeline of expressions. -/
abbrev Row := List Expression

def templateText (exps : List String) : GoString :=
  exps.flatMap fun e => "\x7b\x7b" ++ e.toList ++ "\x7d\x7d"

/-! ## Names -/

def subTask : GoString := "_task"

def subChannel : GoString := "_channel"

def subClient : GoString := "_client"

def subTasks : List GoString :=
  ["_task_output", "_task_success", "_task_result"]

def subChannels : List GoString := ["_channel_msg", "_channel_cmd"]

def subClients : List GoString :=
  ["_client_msg", "_client_task_result", "_client_task_output",
    "_client_task_name"]

/-- The variables every template knows. -/
def globalVars (p : GoString) : Option GoString :=
  if p = ".TASK_STATUS_SUCCESS" then some "1" else none

/-- The names of a whole task, channel or client, as `GetRootDefaultVar` and `extractValue` test
them. -/
def isRoot (v : GoString) : Bool :=
  hasSuffix v subTask || hasSuffix v subChannel || hasSuffix v subClient

section

variable (H : Host)

def getTaskName (s : GoString) : GoString := H.toLower (s ++ subTask)

def getChannelName (s : GoString) : GoString := H.toLower (s ++ subChannel)

def getClientName (s : GoString) : GoString := H.toLower (s ++ subClient)

/-- `GetRootDefaultVar`. The suffix of a client is cut by `strings.TrimRight`, as a set of
characters. -/
def getRootDefaultVar (v : GoString) : GoString :=
  if isRoot v then v
  else
    match subTasks.find? (hasSuffix v) with
    | some e => getTaskName H (trimSuffix v e)
    | none =>
      match subChannels.find? (hasSuffix v) with
      | some e => getChannelName H (trimSuffix v e)
      | none =>
        match subClients.find? (hasSuffix v) with
        | some e => getClientName H (Strings.trimRight v e)
        | none => []

end

def isConstant (s : GoString) : Bool :=
  hasPrefix s "(" && hasSuffix s ")"

def getConstVar (s : GoString) : GoString := s.filter fun c => c != '(' && c != ')'

/-- The workflow's variables with their values. -/
abbrev Vars := List (GoString × GoString)

def Vars.exists (vs : Vars) (name : GoString) : Bool := vs.any fun v => v.1 == name

def Vars.value (vs : Vars) (name : GoString) : GoString :=
  ((vs.find? fun v => v.1 == name).map Prod.snd).getD []

def bareName (e : GoString) : GoString := Strings.trimPrefix e "."

def isVariable (e : GoString) : Bool := hasPrefix e "."

/-- `varTemp`: the scopes, innermost first, and their variables, newest first. -/
abbrev VarTemp := List (List Kv)

namespace VarTemp

/-- A variable is declared in the innermost scope. -/
def push (vt : VarTemp) (kv : Kv) : Option VarTemp :=
  match vt with
  | [] => none
  | scope :: outer => some ((kv :: scope) :: outer)

def replaceNewest (kv : Kv) : List Kv → Option (List Kv)
  | [] => none
  | e :: scope =>
    if e.key = kv.key then some (kv :: scope) else (replaceNewest kv scope).map (e :: ·)

/-- `Set`: the newest variable of the key is replaced in every scope that has one, since `break`
leaves the inner loop only. Where none has, it is new in the innermost scope, and panics without
one. -/
def set (vt : VarTemp) (kv : Kv) : Option VarTemp :=
  if vt.any fun scope => (replaceNewest kv scope).isSome then
    some (vt.map fun scope => (replaceNewest kv scope).getD scope)
  else push vt kv

def append (vt : VarTemp) : VarTemp := [] :: vt

def clearTop : VarTemp → Option VarTemp
  | [] => none
  | _ :: outer => some ([] :: outer)

def pop : VarTemp → Option VarTemp
  | [] => none
  | _ :: outer => some outer

def getValue (vt : VarTemp) (key : GoString) : Option Kv :=
  vt.flatten.find? fun e => e.key == key

def existIn (vt : VarTemp) (key : GoString) : Bool :=
  vt.any fun scope => scope.any fun e => e.key == key

end VarTemp

end Kairos

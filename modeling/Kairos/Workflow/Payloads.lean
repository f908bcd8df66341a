import Mathlib.Data.List.TakeWhile
import Kairos.Workflow.Compile

/-!
# The payloads of tasks

`Task.Compile` of `pkg/workflow/workflow.go` checks the references of a payload in lower case. It
renders the payload with `text/template`, which looks a name up as it is spelled and prints `<no
value>` for one that is no variable of the user. So a name with a capital letter is lost, and so is
a default variable. What `text/template` does with other actions is open.
-/

namespace Kairos.Workflow

open List
open Strings (hasPrefix untilBraces findBraces)

/-- Characters outside of actions, references to a name, and other actions with their text. -/
inductive Node where
  | text (c : Char)
  | field (name : GoString)
  | action (source : GoString)
  deriving DecidableEq

def Node.source : Node → GoString
  | .text c => [c]
  | .field name => "\x7b\x7b." ++ name ++ "\x7d\x7d"
  | .action source => source

def noValue : GoString := "<no value>"

def lookup (vars : Vars) (name : GoString) : Option GoString :=
  (vars.find? fun v => v.1 == name).map Prod.snd

def readName (alnum : Char → Bool) (s : GoString) : Option (GoString × GoString) :=
  let name := s.takeWhile alnum
  let rest := s.dropWhile alnum
  if (name.head?.any fun c => !c.isDigit) && hasPrefix rest "\x7d\x7d" then
    some (name, rest.drop 2)
  else none

def fields? (alnum : Char → Bool) : ℕ → GoString → Option (List Node)
  | _, [] => some []
  | 0, _ :: _ => none
  | fuel + 1, c :: s =>
    if hasPrefix (c :: s) "\x7b\x7b" then
      if hasPrefix (c :: s) "\x7b\x7b." then
        (readName alnum (s.drop 2)).bind fun r =>
          (fields? alnum fuel r.2).map (.field r.1 :: ·)
      else none
    else (fields? alnum fuel s).map (.text c :: ·)

/-- `text/template`: the characters of names, and what it does with other actions. -/
structure TemplateHost where
  alnum : Char → Bool
  alnum_brace : alnum '\x7d' = false
  alnum_newline : alnum '\n' = false
  parse : GoString → Res (List Node)
  parse_source : ∀ s nodes, parse s = .ok nodes → nodes.flatMap Node.source = s
  eval : List Node → ℕ → Vars → Res GoString
  jsonError : GoString → GoString

namespace TemplateHost

variable (T : TemplateHost)

def nodes (payload : GoString) : Res (List Node) :=
  match fields? T.alnum payload.length payload with
  | some nodes => .ok nodes
  | none => T.parse payload

def output (nodes : List Node) (vars : Vars) : Node × ℕ → Res GoString
  | (.text c, _) => .ok [c]
  | (.field name, _) => .ok ((lookup vars name).getD noValue)
  | (.action _, i) => T.eval nodes i vars

def outputs (nodes : List Node) (vars : Vars) : Res (List GoString) :=
  Res.forEach (T.output nodes vars) nodes.zipIdx

def payloads : PayloadHost where
  render payload vars := do
    let nodes ← T.nodes payload
    let outs ← T.outputs nodes vars
    .ok outs.flatten
  jsonError := T.jsonError

section

variable (H : Host) (vars : Vars)

/-- What is to stand for a part: for a reference to a variable, in any case, its value, and else the
part itself. -/
def due : Node → GoString
  | .field name => (lookup vars (H.toLower name)).getD (Node.field name).source
  | node => node.source

/-- Each part of the payload has become what is to stand for it, and no reference has no value. -/
def Assigned (payload text : GoString) : Prop :=
  ∃ nodes outs, T.nodes payload = .ok nodes ∧ nodes.flatMap Node.source = payload ∧
    T.outputs nodes vars = .ok outs ∧ text = outs.flatten ∧ outs = nodes.map (due H vars) ∧
    ∀ name, .field name ∈ nodes → lookup vars name ≠ none

/-- The name is a variable as spelled, with its value in lower case; one that is no variable has its
own reference for a value. -/
def Spelled (name : GoString) : Prop :=
  ∃ v, lookup vars name = some v ∧ (lookup vars (H.toLower name) = some v ∨
    lookup vars (H.toLower name) = none ∧ v = (Node.field name).source)

/-- Every reference is a variable as spelled, and every other action prints its own text. -/
def Resolved (payload : GoString) : Prop :=
  ∀ nodes, T.nodes payload = .ok nodes →
    (∀ name, .field name ∈ nodes → Spelled H vars name) ∧
    ∀ i source, nodes[i]? = some (.action source) → T.eval nodes i vars = .ok source

end

end TemplateHost

/-! ## Reading a payload -/

section

variable {T : TemplateHost} {alnum : Char → Bool} {s : GoString} {ns : List Node}

variable {name rest : GoString}

theorem readName_eq_some (h : readName alnum s = some (name, rest)) :
    s = name ++ '\x7d' :: '\x7d' :: rest ∧ ∀ c ∈ name, alnum c := by
  simp only [readName] at h
  split_ifs at h with hname
  cases h
  have hclosed := (Bool.and_eq_true _ _ ▸ hname).2
  obtain ⟨t, ht⟩ := isPrefixOf_iff_prefix.1 hclosed
  refine ⟨?_, fun c hc => mem_takeWhile_imp hc⟩
  have hsplit := takeWhile_append_dropWhile (p := alnum) (l := s)
  rw [← ht] at hsplit ⊢
  exact hsplit.symm

variable {fuel : ℕ}

theorem fields?_cons {c : Char} (h : fields? alnum (fuel + 1) (c :: s) = some ns) :
    (hasPrefix (c :: s) "\x7b\x7b" = false ∧
      ∃ ms, fields? alnum fuel s = some ms ∧ ns = .text c :: ms) ∨
    ∃ name rest ms, c :: s = '\x7b' :: '\x7b' :: '.' :: (name ++ '\x7d' :: '\x7d' :: rest) ∧
      (∀ c ∈ name, alnum c) ∧ fields? alnum fuel rest = some ms ∧ ns = .field name :: ms := by
  rw [fields?] at h
  split_ifs at h with hopen hdot
  · obtain ⟨⟨name, rest⟩, hname, h⟩ := Option.bind_eq_some_iff.1 h
    obtain ⟨ms, hms, rfl⟩ := Option.map_eq_some_iff.1 h
    obtain ⟨hs, halnum⟩ := readName_eq_some hname
    obtain ⟨t, ht⟩ := isPrefixOf_iff_prefix.1 hdot
    refine .inr ⟨name, rest, ms, ?_, halnum, hms, rfl⟩
    have hdrop : s.drop 2 = t := by
      have := congrArg (List.drop 3) ht
      simpa using this.symm
    rw [← ht, ← hs, hdrop]
    rfl
  · obtain ⟨ms, hms, rfl⟩ := Option.map_eq_some_iff.1 h
    exact .inl ⟨by simpa using hopen, ms, hms, rfl⟩

theorem fields?_rule {motive : GoString → List Node → Prop} (nil : motive [] [])
    (text : ∀ c s ms, hasPrefix (c :: s) "\x7b\x7b" = false → motive s ms →
      motive (c :: s) (.text c :: ms))
    (field : ∀ name rest ms, (∀ c ∈ name, alnum c) → motive rest ms →
      motive ('\x7b' :: '\x7b' :: '.' :: (name ++ '\x7d' :: '\x7d' :: rest)) (.field name :: ms))
    (h : fields? alnum fuel s = some ns) : motive s ns := by
  induction fuel generalizing s ns with
  | zero =>
    cases s with
    | nil => exact Option.some.inj h ▸ nil
    | cons c s => cases h
  | succ fuel ih =>
    cases s with
    | nil => exact Option.some.inj h ▸ nil
    | cons c s =>
      obtain ⟨hopen, ms, hms, rfl⟩ | ⟨name, rest, ms, hs, halnum, hms, rfl⟩ := fields?_cons h
      · exact text c s ms hopen (ih hms)
      · exact hs ▸ field name rest ms halnum (ih hms)

theorem source_of_fields? (h : fields? alnum fuel s = some ns) : ns.flatMap Node.source = s := by
  refine fields?_rule (motive := fun s ns => ns.flatMap Node.source = s) rfl ?_ ?_ h
  · intro c s ms _ ih
    rw [flatMap_cons, ih]
    rfl
  · intro name rest ms _ ih
    simp [ih, Node.source]

theorem action_notMem_of_fields? (h : fields? alnum fuel s = some ns)
    (source : GoString) : .action source ∉ ns := by
  refine fields?_rule (motive := fun _ ns => .action source ∉ ns) not_mem_nil ?_ ?_ h
  · intro c s ms _ ih
    simp [ih]
  · intro name rest ms _ ih
    simp [ih]

def references (ns : List Node) : List GoString :=
  ns.filterMap fun node =>
    match node with
    | .field name => some ('.' :: name)
    | _ => none

theorem untilBraces_append (h : ∀ c ∈ name, c ≠ '\x7d' ∧ c ≠ '\n') (rest : GoString) :
    untilBraces (name ++ '\x7d' :: '\x7d' :: rest) = some (name, rest) := by
  induction name with
  | nil => rfl
  | cons c name ih =>
    obtain ⟨⟨hbrace, hnewline⟩, hname⟩ := forall_mem_cons.1 h
    have hopen : hasPrefix (c :: (name ++ '\x7d' :: '\x7d' :: rest))
        "\x7d\x7d" = false := by
      simp [hasPrefix, isPrefixOf, Ne.symm hbrace]
    rw [cons_append, untilBraces, hopen, if_neg (by simp), if_neg hnewline, ih hname]
    rfl

theorem findBraces_open {n : ℕ} {t u : GoString} (h : untilBraces t = some (u, rest)) :
    findBraces (n + 1) ('\x7b' :: '\x7b' :: t) = u :: findBraces n rest := by
  have hopen : hasPrefix ('\x7b' :: '\x7b' :: t) "\x7b\x7b" := rfl
  simp only [findBraces, hopen, if_true, drop_succ_cons, drop_zero, h]

theorem findBraces_of_fields? (h : fields? T.alnum fuel s = some ns) :
    ∀ n, s.length ≤ n → findBraces n s = references ns := by
  refine fields?_rule (motive := fun s ns => ∀ n, s.length ≤ n →
    findBraces n s = references ns) ?_ ?_ ?_ h
  · intro n _
    cases n <;> rfl
  · intro c s ms hopen ih n hn
    obtain ⟨n, rfl⟩ : ∃ k, n = k + 1 := ⟨n - 1, by simp at hn; omega⟩
    simp only [findBraces, hopen]
    exact ih n (Nat.le_of_succ_le_succ hn)
  · intro name rest ms halnum ih n hn
    have hlength : rest.length + 1 ≤ n := by
      simp at hn
      omega
    obtain ⟨n, rfl⟩ : ∃ k, n = k + 1 := ⟨n - 1, by omega⟩
    have hchars : ∀ d ∈ '.' :: name, d ≠ '\x7d' ∧ d ≠ '\n' := by
      refine forall_mem_cons.2 ⟨by decide, fun d hd => ⟨?_, ?_⟩⟩
      · rintro rfl
        exact absurd (halnum _ hd) (by simp [T.alnum_brace])
      · rintro rfl
        exact absurd (halnum _ hd) (by simp [T.alnum_newline])
    have huntil := untilBraces_append hchars rest
    rw [cons_append] at huntil
    rw [findBraces_open huntil, ih n (Nat.le_of_succ_le_succ hlength)]
    rfl

/-! ## Compiling a task -/

namespace TemplateHost

variable {H : Host} {vars : Vars} {t : Task} {payload text : GoString} {nodes : List Node}

theorem nodes_eq_of_fields? (h : fields? T.alnum payload.length payload = some nodes) :
    T.nodes payload = .ok nodes := by
  simp [TemplateHost.nodes, h]

theorem source_of_nodes (h : T.nodes payload = .ok nodes) :
    nodes.flatMap Node.source = payload := by
  unfold TemplateHost.nodes at h
  split at h
  · rename_i ns hfields
    cases h
    exact source_of_fields? hfields
  · exact T.parse_source payload nodes h

theorem exists_outputs (h : t.compile H T.payloads vars = .ok text) :
    ∃ nodes outs, T.nodes t.payload = .ok nodes ∧ T.outputs nodes vars = .ok outs ∧
      text = outs.flatten := by
  unfold Task.compile at h
  split_ifs at h with hempty
  · cases h
    exact ⟨[], [], by rw [hempty]; rfl, rfl, rfl⟩
  · obtain ⟨-, -, h⟩ := Res.bind_eq_ok.1 h
    obtain ⟨rendered, hrender, h⟩ := Res.bind_eq_ok.1 h
    obtain ⟨nodes, hnodes, hrender⟩ := Res.bind_eq_ok.1 hrender
    obtain ⟨outs, houts, hrender⟩ := Res.bind_eq_ok.1 hrender
    refine ⟨nodes, outs, hnodes, houts, ?_⟩
    cases hrender
    split at h
    · cases h
    · split_ifs at h
      exact (Res.ok.inj h).symm

theorem outputs_eq_due_iff : T.outputs nodes vars = .ok (nodes.map (due H vars)) ↔
    ∀ p ∈ nodes.zipIdx, T.output nodes vars p = .ok (due H vars p.1) := by
  have hmap : nodes.map (due H vars) = nodes.zipIdx.map fun p => due H vars p.1 := by
    conv_lhs => rw [← zipIdx_map_fst 0 nodes, map_map]
    rfl
  rw [outputs, Res.forEach_eq_ok, hmap, forall₂_map_right_iff, forall₂_same]

theorem field_due_iff (name : GoString) :
    (lookup vars name).getD noValue = due H vars (.field name) ∧ lookup vars name ≠ none ↔
      Spelled H vars name := by
  unfold Spelled due
  cases hname : lookup vars name with
  | none => simp
  | some v =>
    cases hlower : lookup vars (H.toLower name) with
    | none => simp [hlower]
    | some w => simp [hlower, eq_comm]

theorem forall_output_iff : (∀ p ∈ nodes.zipIdx, T.output nodes vars p = .ok (due H vars p.1)) ∧
      (∀ name, .field name ∈ nodes → lookup vars name ≠ none) ↔
    (∀ name, .field name ∈ nodes → Spelled H vars name) ∧
      ∀ i source, nodes[i]? = some (.action source) → T.eval nodes i vars = .ok source := by
  constructor
  · rintro ⟨houtput, hsome⟩
    refine ⟨fun name hname => ?_, fun i source hi => ?_⟩
    · obtain ⟨i, hi⟩ := mem_iff_getElem?.1 hname
      have hout := houtput (.field name, i) (mk_mem_zipIdx_iff_getElem?.2 hi)
      exact (field_due_iff name).1 ⟨Res.ok.inj hout, hsome name hname⟩
    · exact houtput (.action source, i) (mk_mem_zipIdx_iff_getElem?.2 hi)
  · rintro ⟨hspelled, haction⟩
    refine ⟨?_, fun name hname => ((field_due_iff name).2 (hspelled name hname)).2⟩
    rintro ⟨node, i⟩ hp
    have hi := mk_mem_zipIdx_iff_getElem?.1 hp
    cases node with
    | text c => rfl
    | field name =>
      have hname := hspelled name (mem_iff_getElem?.2 ⟨i, hi⟩)
      exact congrArg Res.ok ((field_due_iff name).2 hname).1
    | action source => exact haction i source hi

variable {v : GoString}

theorem lookup_of_checkName {u : Unit} (h : t.checkName H vars v = .ok u)
    (hdefault : isDefaultVar v = false) : ∃ w, lookup vars (bareName v) = some w := by
  unfold Task.checkName at h
  split_ifs at h with hvar hexists hother
  · obtain ⟨x, hx, hname⟩ := any_eq_true.1 hexists
    cases hfind : vars.find? fun x => x.1 == bareName v with
    | none => exact absurd hname (find?_eq_none.1 hfind x hx)
    | some x => exact ⟨x.2, by rw [lookup, hfind]; rfl⟩
  · simp [hdefault] at hother

theorem checkName_of_compile (h : t.compile H T.payloads vars = .ok text)
    (hv : v ∈ extractVariableNames H t.payload) : ∃ u, t.checkName H vars v = .ok u := by
  unfold Task.compile at h
  split_ifs at h with hempty
  · rw [hempty] at hv
    cases hv
  · obtain ⟨us, hus, -⟩ := Res.bind_eq_ok.1 h
    obtain ⟨i, hi⟩ := mem_iff_get.1 hv
    have hall := forall₂_iff_get.1 (Res.forEach_eq_ok.1 hus)
    exact ⟨_, hi ▸ hall.2 i i.2 (hall.1 ▸ i.2)⟩

theorem spelled_of_compile (h : t.compile H T.payloads vars = .ok text)
    (hfields : fields? T.alnum t.payload.length t.payload = some nodes) {name : GoString}
    (hname : .field name ∈ nodes) (hlower : H.toLower ('.' :: name) = '.' :: name)
    (hdefault : isDefaultVar ('.' :: name) = false) : Spelled H vars name := by
  have hmem : '.' :: name ∈ extractVariableNames H t.payload := by
    rw [extractVariableNames, findBraces_of_fields? hfields _ (Nat.le_refl _)]
    refine mem_map.2 ⟨'.' :: name, ?_, hlower⟩
    exact mem_filterMap.2 ⟨.field name, hname, rfl⟩
  obtain ⟨u, hu⟩ := checkName_of_compile h hmem
  obtain ⟨w, hw⟩ := lookup_of_checkName hu hdefault
  have hself : H.toLower name = name := (List.cons.inj hlower).2
  exact ⟨w, hw, .inl (hself.symm ▸ hw)⟩

end TemplateHost

end

open TemplateHost in
/-- A payload is assigned exactly when every reference is a variable as spelled, and other actions
print their own text, as where all are references in lower case, none to a default variable. -/
theorem Task.assigned_iff (H : Host) (T : TemplateHost) (vars : Vars) (t : Task) (text : GoString)
    (h : t.compile H T.payloads vars = .ok text) :
    (T.Assigned H vars t.payload text ↔ T.Resolved H vars t.payload) ∧
    ∀ nodes, fields? T.alnum t.payload.length t.payload = some nodes →
      (∀ name, .field name ∈ nodes →
        H.toLower ('.' :: name) = '.' :: name ∧ isDefaultVar ('.' :: name) = false) →
      T.Assigned H vars t.payload text := by
  obtain ⟨nodes, outs, hnodes, houts, rfl⟩ := exists_outputs h
  have hiff : T.Assigned H vars t.payload outs.flatten ↔ T.Resolved H vars t.payload := by
    constructor
    · rintro ⟨ns, os, hns, -, hos, -, rfl, hsome⟩ ms hms
      cases hns.symm.trans hms
      exact forall_output_iff.1 ⟨outputs_eq_due_iff.1 hos, hsome⟩
    · intro hresolved
      obtain ⟨hdue, hsome⟩ := forall_output_iff.2 (hresolved nodes hnodes)
      have heq := Res.ok.inj (houts.symm.trans (outputs_eq_due_iff.2 hdue))
      exact ⟨nodes, outs, hnodes, source_of_nodes hnodes, houts, rfl, heq, hsome⟩
  refine ⟨hiff, fun ns hns hlower => hiff.2 fun ms hms => ?_⟩
  cases (nodes_eq_of_fields? hns).symm.trans hms
  refine ⟨fun name hname => ?_, fun i source hi => ?_⟩
  · exact spelled_of_compile h hns hname (hlower name hname).1 (hlower name hname).2
  · exact absurd (mem_iff_getElem?.2 ⟨i, hi⟩) (action_notMem_of_fields? hns source)

def plainTemplates : TemplateHost where
  alnum c := c.isAlphanum || c = '_'
  alnum_brace := rfl
  alnum_newline := rfl
  parse _ := .err []
  parse_source _ _ h := by cases h
  eval _ _ _ := .err []
  jsonError _ := []

def jsonHost : Host := { plainHost with jsonText := fun _ => some .null }

/-- A reference in lower case is replaced by the value of its variable. -/
theorem lower_reference_assigned :
    Task.compile jsonHost plainTemplates.payloads [("x", "1")]
      ⟨[], [], "[\x7b\x7b.x\x7d\x7d]"⟩ = .ok "[1]" ∧
    plainTemplates.Assigned jsonHost [("x", "1")]
      "[\x7b\x7b.x\x7d\x7d]" "[1]" := by
  have h : Task.compile jsonHost plainTemplates.payloads [("x", "1")]
      ⟨[], [], "[\x7b\x7b.x\x7d\x7d]"⟩ = .ok "[1]" := rfl
  refine ⟨h, (Task.assigned_iff jsonHost plainTemplates _ _ _ h).2
    [.text '[', .field "x", .text ']'] rfl fun name hname => ?_⟩
  obtain rfl : name = "x" := by simpa using hname
  decide

/-- A reference to a task's output, and one with a capital letter, are printed without a value. -/
theorem accepted_references_lost :
    Task.compile jsonHost plainTemplates.payloads [("x", "1")]
      ⟨[], [], "[\"\x7b\x7b.b_task\x7d\x7d\",\"\x7b\x7b.X\x7d\x7d\"]"⟩ =
        .ok "[\"<no value>\",\"<no value>\"]" ∧
    ¬ plainTemplates.Assigned jsonHost [("x", "1")]
      "[\"\x7b\x7b.b_task\x7d\x7d\",\"\x7b\x7b.X\x7d\x7d\"]"
      "[\"<no value>\",\"<no value>\"]" := by
  refine ⟨rfl, ?_⟩
  rintro ⟨nodes, outs, hnodes, -, -, -, -, hsome⟩
  have hread : plainTemplates.nodes
      "[\"\x7b\x7b.b_task\x7d\x7d\",\"\x7b\x7b.X\x7d\x7d\"]" =
      .ok [.text '[', .text '"', .field "b_task", .text '"', .text ',', .text '"',
        .field "X", .text '"', .text ']'] := rfl
  cases hread.symm.trans hnodes
  exact hsome "X" (by decide) rfl

end Kairos.Workflow

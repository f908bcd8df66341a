import Kairos.Library.Layers
import Kairos.Template.Syntax

/-!
# Setting a variable

`varTemp` keeps pointers to the entries of its scopes, and `Set` writes through the pointers that it
replaces. On what can be looked up (`Entries.layers`) it is `Layers.set`, whatever the pointers
share, as it is on the plain entries of the interpreter's model (`set_agrees`). `Set` does not stop
at the innermost binding, since its `break` leaves the inner loop only.
-/

namespace Kairos

open List Option

/-! ## The scopes with their pointers -/

/-- `varTemp`: the scopes, innermost first, each with pointers to its entries, newest first, and the
entries. -/
structure Entries where
  cells : List Kv
  items : List (List ℕ)
  valid : ∀ scope ∈ items, ∀ p ∈ scope, p < cells.length

namespace Entries

def hasKey (cells : List Kv) (key : GoString) (p : ℕ) : Bool := cells[p]?.any fun e => e.key == key

def setScope (kv : Kv) (new : ℕ) (cells : List Kv) : List ℕ → Option (List ℕ × List Kv)
  | [] => none
  | p :: scope =>
    if hasKey cells kv.key p then
      some (new :: scope, cells.modify p fun e => { e with value := kv.value })
    else (setScope kv new cells scope).map fun r => (p :: r.1, r.2)

def setItems (kv : Kv) (new : ℕ) : List Kv → List (List ℕ) → Bool × List (List ℕ) × List Kv
  | cells, [] => (false, [], cells)
  | cells, scope :: outer =>
    match setScope kv new cells scope with
    | some (scope', cells') =>
      let r := setItems kv new cells' outer
      (true, scope' :: r.2.1, r.2.2)
    | none =>
      let r := setItems kv new cells outer
      (r.1, scope :: r.2.1, r.2.2)

section

variable {kv : Kv} {new : ℕ} {cells cells' : List Kv} {scope scope' : List ℕ}

theorem setScope_cases (kv : Kv) (new : ℕ) (cells : List Kv) (scope : List ℕ) :
    (setScope kv new cells scope = none ∧ ∀ p ∈ scope, hasKey cells kv.key p = false) ∨
      ∃ l p r, scope = l ++ p :: r ∧ (∀ q ∈ l, hasKey cells kv.key q = false) ∧
        hasKey cells kv.key p ∧ setScope kv new cells scope =
          some (l ++ new :: r, cells.modify p fun e => { e with value := kv.value }) := by
  induction scope with
  | nil => exact .inl ⟨rfl, by simp⟩
  | cons q scope ih =>
    unfold setScope
    by_cases hq : hasKey cells kv.key q
    · rw [if_pos hq]
      exact .inr ⟨[], q, scope, rfl, by simp, hq, rfl⟩
    · rw [if_neg hq]
      have hq' : hasKey cells kv.key q = false := by simpa using hq
      rcases ih with ⟨hnone, hall⟩ | ⟨l, p, r, rfl, hl, hp, hsome⟩
      · exact .inl ⟨by rw [hnone, map_none], forall_mem_cons.mpr ⟨hq', hall⟩⟩
      · refine .inr ⟨q :: l, p, r, rfl, forall_mem_cons.mpr ⟨hq', hl⟩, hp, ?_⟩
        rw [hsome, Option.map_some, cons_append]

def Rewritten (kv : Kv) (cells cells' : List Kv) : Prop :=
  ∀ p : ℕ, cells'[p]? = cells[p]? ∨ hasKey cells kv.key p ∧ cells'[p]? = some kv

theorem Rewritten.refl (kv : Kv) (cells : List Kv) : Rewritten kv cells cells := fun _ => .inl rfl

variable {p : ℕ}

theorem rewritten_modify (hp : hasKey cells kv.key p) :
    Rewritten kv cells (cells.modify p fun e => { e with value := kv.value }) := by
  intro q
  rw [getElem?_modify]
  by_cases hq : p = q
  · subst hq
    refine .inr ⟨hp, ?_⟩
    obtain ⟨e, he, hkey⟩ := (any_eq_true _ _).mp hp
    have hkey' : e.key = kv.key := by simpa using hkey
    rw [he]
    simp only [Option.map_eq_map, Option.map_some, if_true]
    rw [hkey']
  · left
    simp [hq]

theorem Rewritten.hasKey_eq (h : Rewritten kv cells cells') (key : GoString) (p : ℕ) :
    hasKey cells' key p = hasKey cells key p := by
  rcases h p with heq | ⟨hp, heq⟩
  · unfold hasKey
    rw [heq]
  · obtain ⟨e, he, hkey⟩ := (any_eq_true _ _).mp hp
    have hkey' : e.key = kv.key := by simpa using hkey
    unfold hasKey
    rw [heq, he, any_some, any_some, hkey']

theorem Rewritten.trans {cells'' : List Kv} (h : Rewritten kv cells cells')
    (h' : Rewritten kv cells' cells'') : Rewritten kv cells cells'' := by
  intro p
  rcases h' p with heq | ⟨hp, heq⟩
  · rw [heq]
    exact h p
  · rw [h.hasKey_eq] at hp
    exact .inr ⟨hp, heq⟩

theorem Rewritten.keeps (h : Rewritten kv cells cells') (hp : cells[p]? = some kv) :
    cells'[p]? = some kv := by
  rcases h p with heq | ⟨-, heq⟩
  · rw [heq, hp]
  · exact heq

theorem setItems_length (items : List (List ℕ)) :
    (setItems kv new cells items).2.2.length = cells.length := by
  induction items generalizing cells with
  | nil => rfl
  | cons scope outer ih =>
    unfold setItems
    rcases setScope_cases kv new cells scope with ⟨hs, -⟩ | ⟨l, p, r, -, -, -, hs⟩
    · rw [hs]
      exact ih
    · rw [hs]
      exact ih.trans (length_modify ..)

theorem setItems_valid (hnew : new < cells.length) (items : List (List ℕ))
    (hitems : ∀ scope ∈ items, ∀ p ∈ scope, p < cells.length) :
    ∀ scope ∈ (setItems kv new cells items).2.1, ∀ p ∈ scope,
      p < (setItems kv new cells items).2.2.length := by
  induction items generalizing cells with
  | nil => simp [setItems]
  | cons scope outer ih =>
    obtain ⟨hscope, houter⟩ := forall_mem_cons.mp hitems
    unfold setItems
    rcases setScope_cases kv new cells scope with ⟨hs, -⟩ | ⟨l, p, r, rfl, -, -, hs⟩
    · rw [hs]
      refine forall_mem_cons.mpr ⟨fun p hp => ?_, ih hnew houter⟩
      rw [setItems_length]
      exact hscope p hp
    · rw [hs]
      refine forall_mem_cons.mpr
        ⟨fun q hq => ?_, ih (by simpa using hnew) (by simpa using houter)⟩
      rw [setItems_length, length_modify]
      rw [mem_append, mem_cons] at hq
      rcases hq with hq | rfl | hq
      · exact hscope q (by simp [hq])
      · exact hnew
      · exact hscope q (by simp [hq])

end

def set (vt : Entries) (kv : Kv) : Option Entries :=
  let new := vt.cells.length
  let cells := vt.cells ++ [kv]
  have hnew : new < cells.length := by simp [new, cells]
  have hitems : ∀ scope ∈ vt.items, ∀ p ∈ scope, p < cells.length := fun scope hscope p hp =>
    (vt.valid scope hscope p hp).trans hnew
  if (setItems kv new cells vt.items).1 then
    some ⟨(setItems kv new cells vt.items).2.2, (setItems kv new cells vt.items).2.1,
      setItems_valid hnew vt.items hitems⟩
  else match hvt : vt.items with
    | [] => none
    | scope :: outer => some ⟨cells, (new :: scope) :: outer, by
        obtain ⟨hscope, houter⟩ := forall_mem_cons.mp (hvt ▸ hitems)
        exact forall_mem_cons.mpr ⟨forall_mem_cons.mpr ⟨hnew, hscope⟩, houter⟩⟩

def drop (vt : Entries) (n : ℕ) : Entries where
  cells := vt.cells
  items := vt.items.drop n
  valid := fun scope hscope => vt.valid scope (mem_of_mem_drop hscope)

def take (vt : Entries) (n : ℕ) : Entries where
  cells := vt.cells
  items := vt.items.take n
  valid := fun scope hscope => vt.valid scope (mem_of_mem_take hscope)

def read (cells : List Kv) (scope : List ℕ) : List Kv := scope.filterMap fun p => cells[p]?

def varTemp (vt : Entries) : VarTemp := vt.items.map (read vt.cells)

def getValue (vt : Entries) (key : GoString) : Option Kv :=
  (vt.items.flatten.filterMap fun p => vt.cells[p]?).find? fun e => e.key == key

end Entries

/-! ## What can be looked up -/

def newest (scope : List Kv) : GoString → Option Kv := fun key => scope.find? fun e => e.key == key

def VarTemp.layers (vt : VarTemp) : Layers GoString Kv := vt.map newest

theorem VarTemp.getValue_eq (vt : VarTemp) (key : GoString) :
    vt.getValue key = vt.layers.lookup key := by
  unfold VarTemp.getValue VarTemp.layers Layers.lookup
  rw [find?_flatten, findSome?_map]
  rfl

theorem newest_cons (e : Kv) (scope : List Kv) (key : GoString) :
    newest (e :: scope) key = if e.key = key then some e else newest scope key := by
  unfold newest
  rw [find?_cons]
  by_cases he : e.key = key
  · simp [he]
  · have hbeq : (e.key == key) = false := beq_eq_false_iff_ne.mpr he
    rw [hbeq, if_neg he]

theorem newest_append (scope scope' : List Kv) (key : GoString) :
    newest (scope ++ scope') key = (newest scope key).or (newest scope' key) := find?_append

theorem newest_push (kv : Kv) (scope : List Kv) :
    newest (kv :: scope) = Function.update (newest scope) kv.key (some kv) := by
  funext key
  rw [newest_cons, Function.update_apply]
  simp only [eq_comm]

section

variable {kv : Kv}

theorem replaceNewest_isSome (scope : List Kv) :
    (VarTemp.replaceNewest kv scope).isSome = (newest scope kv.key).isSome := by
  induction scope with
  | nil => rfl
  | cons e scope ih =>
    unfold VarTemp.replaceNewest
    rw [newest_cons]
    split_ifs with he
    · rfl
    · rw [isSome_map, ih]

theorem newest_replaceNewest (scope : List Kv) :
    newest ((VarTemp.replaceNewest kv scope).getD scope) =
      Layers.assign kv.key kv (newest scope) := by
  funext key
  induction scope with
  | nil => rfl
  | cons e scope ih =>
    unfold VarTemp.replaceNewest
    by_cases he : e.key = kv.key
    · rw [if_pos he, getD_some]
      by_cases hk : key = kv.key
      · rw [hk, Layers.assign_self, newest_cons, newest_cons, if_pos rfl, if_pos he]
        rfl
      · rw [Layers.assign_of_ne hk, newest_cons, newest_cons, if_neg (Ne.symm hk),
          if_neg (he ▸ Ne.symm hk)]
    · rw [if_neg he]
      have hcons : ((VarTemp.replaceNewest kv scope).map (e :: ·)).getD (e :: scope) =
          e :: (VarTemp.replaceNewest kv scope).getD scope := by
        cases VarTemp.replaceNewest kv scope with
        | none | some _ => rfl
      rw [hcons, newest_cons, ih]
      by_cases hk : key = kv.key
      · rw [hk, Layers.assign_self, Layers.assign_self, newest_cons, if_neg he, if_neg he]
      · rw [Layers.assign_of_ne hk, Layers.assign_of_ne hk, newest_cons]

theorem VarTemp.layers_set (vt : VarTemp) (kv : Kv) :
    (vt.set kv).map VarTemp.layers = vt.layers.set kv.key kv := by
  have hany : (vt.any fun scope => (VarTemp.replaceNewest kv scope).isSome) =
      (vt.layers.lookup kv.key).isSome := by
    unfold VarTemp.layers Layers.lookup
    rw [findSome?_map, isSome_findSome?]
    simp only [replaceNewest_isSome, Function.comp_def]
  unfold VarTemp.set Layers.set
  rw [hany]
  split_ifs
  · rw [Option.map_some]
    unfold VarTemp.layers
    rw [List.map_map, List.map_map]
    congr 1
    exact map_congr_left fun scope _ => newest_replaceNewest scope
  · cases vt with
    | nil => rfl
    | cons scope outer =>
      show some (newest (kv :: scope) :: outer.map newest) = _
      rw [newest_push]
      rfl

end

namespace Entries

def layers (vt : Entries) : Layers GoString Kv := vt.varTemp.layers

theorem getValue_eq (vt : Entries) (key : GoString) : vt.getValue key = vt.layers.lookup key := by
  unfold layers
  rw [← VarTemp.getValue_eq]
  unfold getValue VarTemp.getValue varTemp
  rw [filterMap_flatten]
  rfl

theorem layers_drop (vt : Entries) (n : ℕ) : (vt.drop n).layers = vt.layers.drop n := by
  unfold layers varTemp VarTemp.layers drop
  rw [map_drop, map_drop]

theorem layers_take (vt : Entries) (n : ℕ) : (vt.take n).layers = vt.layers.take n := by
  unfold layers varTemp VarTemp.layers take
  rw [map_take, map_take]

section

variable {kv : Kv} {new : ℕ} {cells cells' : List Kv}

theorem newest_read_cons (cells : List Kv) (p : ℕ) (scope : List ℕ) (key : GoString) :
    newest (read cells (p :: scope)) key =
      if hasKey cells key p then cells[p]? else newest (read cells scope) key := by
  unfold read hasKey
  rw [filterMap_cons]
  cases cells[p]? with
  | none => simp
  | some e => simp [newest_cons]

theorem newest_read_append (cells : List Kv) (l r : List ℕ) (key : GoString) :
    newest (read cells (l ++ r)) key =
      (newest (read cells l) key).or (newest (read cells r) key) := by
  unfold read
  rw [filterMap_append, newest_append]

variable {key : GoString}

theorem newest_read_of_not_hasKey {scope : List ℕ}
    (h : ∀ p ∈ scope, hasKey cells key p = false) : newest (read cells scope) key = none := by
  induction scope with
  | nil => rfl
  | cons p scope ih =>
    obtain ⟨hp, hscope⟩ := forall_mem_cons.mp h
    rw [newest_read_cons, hp, if_neg (by simp), ih hscope]

variable {p : ℕ}

theorem isSome_of_hasKey (h : hasKey cells key p) : cells[p]?.isSome := by
  obtain ⟨e, he, -⟩ := (any_eq_true _ _).mp h
  rw [he]
  rfl

theorem not_hasKey_of_ne {key' : GoString} (h : hasKey cells key p)
    (hne : key' ≠ key) : hasKey cells key' p = false := by
  obtain ⟨e, he, hkey⟩ := (any_eq_true _ _).mp h
  have hkey' : e.key = key := by simpa using hkey
  unfold hasKey
  rw [he, any_some, hkey']
  simpa using Ne.symm hne

theorem Rewritten.newest_isSome (h : Rewritten kv cells cells') (scope : List ℕ) (key : GoString) :
    (newest (read cells' scope) key).isSome = (newest (read cells scope) key).isSome := by
  induction scope with
  | nil => rfl
  | cons p scope ih =>
    rw [newest_read_cons, newest_read_cons, h.hasKey_eq]
    split_ifs with hp
    · rw [isSome_of_hasKey hp, isSome_of_hasKey ((h.hasKey_eq key p).trans hp)]
    · exact ih

theorem Rewritten.newest_of_ne (h : Rewritten kv cells cells') (scope : List ℕ)
    (hne : key ≠ kv.key) : newest (read cells' scope) key = newest (read cells scope) key := by
  induction scope with
  | nil => rfl
  | cons p scope ih =>
    rw [newest_read_cons, newest_read_cons, h.hasKey_eq, ih]
    split_ifs with hp
    · rcases h p with heq | ⟨hkv, -⟩
      · exact heq
      · rw [not_hasKey_of_ne hkv hne] at hp
        cases hp
    · rfl

theorem Rewritten.assign_newest (h : Rewritten kv cells cells') (scope : List ℕ) :
    Layers.assign kv.key kv (newest (read cells' scope)) =
      Layers.assign kv.key kv (newest (read cells scope)) := by
  funext key
  by_cases hk : key = kv.key
  · have hsome := h.newest_isSome scope kv.key
    rw [hk, Layers.assign_self, Layers.assign_self]
    cases hc : newest (read cells scope) kv.key with
    | none =>
      rw [hc] at hsome
      rw [isSome_eq_false_iff.mp hsome |> isNone_iff_eq_none.mp]
    | some e =>
      rw [hc] at hsome
      obtain ⟨e', he'⟩ := isSome_iff_exists.mp hsome
      rw [he']
      rfl
  · rw [Layers.assign_of_ne hk, Layers.assign_of_ne hk, h.newest_of_ne scope hk]

theorem newest_setScope (hkv : cells[new]? = some kv) {l r : List ℕ}
    (hl : ∀ q ∈ l, hasKey cells kv.key q = false) (hp : hasKey cells kv.key p)
    (h : Rewritten kv cells cells') : newest (read cells' (l ++ new :: r)) =
      Layers.assign kv.key kv (newest (read cells (l ++ p :: r))) := by
  have hnew : hasKey cells kv.key new := by
    unfold hasKey
    rw [hkv]
    simp
  funext key
  by_cases hk : key = kv.key
  · have hl' : newest (read cells' l) kv.key = none :=
      newest_read_of_not_hasKey fun q hq => (h.hasKey_eq kv.key q).trans (hl q hq)
    obtain ⟨e, he⟩ := isSome_iff_exists.mp (isSome_of_hasKey hp)
    rw [hk, Layers.assign_self, newest_read_append, newest_read_append, hl',
      newest_read_of_not_hasKey hl, newest_read_cons, newest_read_cons, h.hasKey_eq, if_pos hnew,
      if_pos hp, he, h.keeps hkv]
    rfl
  · -- neither the pointer that goes nor the one that comes has this key
    rw [Layers.assign_of_ne hk, h.newest_of_ne _ hk, newest_read_append, newest_read_append,
      newest_read_cons, newest_read_cons, not_hasKey_of_ne hnew hk, not_hasKey_of_ne hp hk,
      if_neg Bool.false_ne_true, if_neg Bool.false_ne_true]

/-- The loops: `exist` says whether some scope has the key, and each that has it gets the new
entry. -/
theorem setItems_spec (items : List (List ℕ)) (hkv : cells[new]? = some kv) :
    Rewritten kv cells (setItems kv new cells items).2.2 ∧ (setItems kv new cells items).1 =
        (Layers.lookup (items.map fun scope => newest (read cells scope)) kv.key).isSome ∧
      ((setItems kv new cells items).2.1.map fun scope =>
        newest (read (setItems kv new cells items).2.2 scope)) =
        (items.map fun scope => newest (read cells scope)).map (Layers.assign kv.key kv) := by
  induction items generalizing cells with
  | nil => exact ⟨Rewritten.refl kv cells, rfl, rfl⟩
  | cons scope outer ih =>
    unfold setItems
    rw [map_cons, Layers.lookup_cons]
    rcases setScope_cases kv new cells scope with ⟨hs, hno⟩ | ⟨l, p, r, rfl, hl, hp, hs⟩
    · obtain ⟨hw, hexist, hmap⟩ := ih hkv
      have hnone := newest_read_of_not_hasKey hno
      rw [hs]
      refine ⟨hw, ?_, ?_⟩
      · rw [hnone, none_or]
        exact hexist
      · -- a scope without the key is left alone, and read as before
        rw [map_cons, map_cons, hmap, ← hw.assign_newest scope]
        congr 1
        have hnone' := hw.newest_isSome scope kv.key
        rw [hnone] at hnone'
        unfold Layers.assign
        rw [hnone', if_neg (by simp)]
    · have hmod := rewritten_modify hp
      obtain ⟨hw, -, hmap⟩ := ih (hmod.keeps hkv)
      have hall := hmod.trans hw
      rw [hs]
      refine ⟨hall, ?_, ?_⟩
      · have hsome : (newest (read cells (l ++ p :: r)) kv.key).isSome := by
          rw [newest_read_append, newest_read_of_not_hasKey hl, newest_read_cons, if_pos hp,
            none_or]
          exact isSome_of_hasKey hp
        obtain ⟨e, he⟩ := isSome_iff_exists.mp hsome
        rw [he, some_or]
        rfl
      · rw [map_cons, map_cons, hmap, newest_setScope hkv hl hp hall, List.map_map,
          List.map_map]
        congr 1
        exact map_congr_left fun sc _ => hmod.assign_newest sc

end

theorem layers_eq (vt : Entries) :
    vt.layers = vt.items.map fun scope => newest (read vt.cells scope) := by
  unfold layers VarTemp.layers varTemp
  rw [List.map_map]
  rfl

theorem read_append (vt : Entries) (kv : Kv) {scope : List ℕ} (hscope : scope ∈ vt.items) :
    read (vt.cells ++ [kv]) scope = read vt.cells scope :=
  filterMap_congr fun p hp => getElem?_append_left (vt.valid scope hscope p hp)

theorem layers_set (vt : Entries) (kv : Kv) : (vt.set kv).map layers = vt.layers.set kv.key kv := by
  have hkv : (vt.cells ++ [kv])[vt.cells.length]? = some kv := by simp
  obtain ⟨-, hexist, hmap⟩ := setItems_spec vt.items hkv
  have hold : (vt.items.map fun scope => newest (read (vt.cells ++ [kv]) scope)) = vt.layers := by
    rw [layers_eq]
    exact map_congr_left fun scope hscope => by rw [read_append vt kv hscope]
  rw [hold] at hexist hmap
  obtain ⟨cells, items, valid⟩ := vt
  by_cases hsome : (Layers.lookup (layers ⟨cells, items, valid⟩) kv.key).isSome
  · unfold set Layers.set
    rw [if_pos hsome, if_pos (hexist.trans hsome), Option.map_some, layers_eq]
    exact congrArg some hmap
  · unfold set Layers.set
    rw [if_neg hsome, if_neg (hexist ▸ hsome)]
    cases items with
    | nil => rfl
    | cons scope outer =>
      have hnew : newest (read (cells ++ [kv]) (cells.length :: scope)) =
          Function.update (newest (read (cells ++ [kv]) scope)) kv.key (some kv) := by
        have hcons : read (cells ++ [kv]) (cells.length :: scope) =
            kv :: read (cells ++ [kv]) scope := filterMap_cons_some hkv
        rw [hcons, newest_push]
      rw [layers_eq, map_cons] at hold
      show some (layers ⟨cells ++ [kv], (cells.length :: scope) :: outer, _⟩) = _
      rw [layers_eq, layers_eq, map_cons, map_cons]
      obtain ⟨hhead, htail⟩ := List.cons.inj hold
      rw [hnew, hhead, htail]

variable {vt : Entries}

theorem layers_of_set {vt' : Entries} {kv : Kv} (h : vt.set kv = some vt') :
    vt.layers.set kv.key kv = some vt'.layers := by
  rw [← layers_set, h, Option.map_some]

theorem set_isSome {kv : Kv} (h : (vt.layers.lookup kv.key).isSome) :
    ∃ vt', vt.set kv = some vt' := by
  have hset : vt.layers.set kv.key kv = some (vt.layers.map (Layers.assign kv.key kv)) := if_pos h
  rw [← layers_set] at hset
  obtain ⟨vt', hvt', -⟩ := map_eq_some_iff.mp hset
  exact ⟨vt', hvt'⟩

theorem key_of_getValue {key : GoString} {e : Kv} (h : vt.getValue key = some e) : e.key = key := by
  simpa using find?_some h

theorem set_agrees (vt : Entries) (kv : Kv) :
    (vt.set kv).map layers = (vt.varTemp.set kv).map VarTemp.layers := by
  rw [layers_set, VarTemp.layers_set]
  rfl

/-! ## What `Set` leaves alone -/

/-- Only the innermost binding has changed: other keys are looked up as before, and so is every key
once the scopes down to that binding are popped. -/
structure SetsInnermost (vt : Entries) (kv : Kv) (vt' : Entries) : Prop where
  sets : vt'.getValue kv.key = some kv
  others : ∀ n key, key ≠ kv.key → (vt'.drop n).getValue key = (vt.drop n).getValue key
  outer : ∀ n, ((vt.take n).getValue kv.key).isSome →
    ∀ key, (vt'.drop n).getValue key = (vt.drop n).getValue key

/-- `Set` changes the innermost binding only, exactly if what is seen of the key further out has the
new value already. -/
theorem sets_innermost_iff (vt : Entries) (kv : Kv) :
    (∀ vt', vt.set kv = some vt' → SetsInnermost vt kv vt') ↔
      ∀ n, ((vt.take n).getValue kv.key).isSome →
        ∀ e, (vt.drop n).getValue kv.key = some e → e.value = kv.value := by
  constructor
  · intro hall n hn e he
    rw [getValue_eq, layers_take] at hn
    rw [getValue_eq, layers_drop] at he
    obtain ⟨vt', hset⟩ := set_isSome (Layers.isSome_of_take hn)
    have houter := (hall vt' hset).outer n (by rw [getValue_eq, layers_take]; exact hn)
    simp only [getValue_eq, layers_drop] at houter
    rw [(Layers.lookup_drop_set_iff (layers_of_set hset) hn).mp houter e he]
  · intro hcond vt' hset
    have hlayers := layers_of_set hset
    refine ⟨?_, fun n key hkey => ?_, fun n hn => ?_⟩
    · rw [getValue_eq]
      exact Layers.lookup_set_self hlayers
    · rw [getValue_eq, getValue_eq, layers_drop, layers_drop]
      exact Layers.lookup_set_of_ne hlayers hkey n
    · have hsame : ∀ e, Layers.lookup (vt.layers.drop n) kv.key = some e → e = kv := by
        intro e he
        rw [← layers_drop, ← getValue_eq] at he
        show (⟨e.key, e.value⟩ : Kv) = ⟨kv.key, kv.value⟩
        rw [key_of_getValue he, hcond n hn e he]
      rw [getValue_eq, layers_take] at hn
      simp only [getValue_eq, layers_drop]
      exact (Layers.lookup_drop_set_iff hlayers hn).mpr hsame

def shadowed : Entries where
  cells := [⟨"i", .str "outer"⟩, ⟨"i", .str "inner"⟩]
  items := [[1], [0]]
  valid := by decide

/-- Setting a variable in the inner scope is seen after it is popped. -/
theorem shadowed_set_changes_outer :
    ∃ vt', shadowed.set ⟨"i", .str "new"⟩ = some vt' ∧
      (shadowed.take 1).getValue "i" = some ⟨"i", .str "inner"⟩ ∧
      (shadowed.drop 1).getValue "i" = some ⟨"i", .str "outer"⟩ ∧
      (vt'.drop 1).getValue "i" = some ⟨"i", .str "new"⟩ :=
  ⟨_, rfl, rfl, rfl, rfl⟩

end Entries

end Kairos

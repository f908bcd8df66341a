import Kairos.Template.Rounds

/-!
# The table of jumps against the blocks of the parser

`Parse` and `Build` find the blocks of a template each in its own way: `Parse` adds up a count per
row (`parseMark`), and `Build` matches rows on a stack, by the first expression of a row that is in
its own list (`rowMark`).
-/

namespace Kairos

open List Option
open Matching (Target Block Pushes Pops Matched level matchLoop run delta level_succ run_matched)

def clauseRow (row : Row) : Bool := row.head?.any fun e => e.is .elseifExp || e.is .elseExp

def parseMark (r : Row × ℤ) : Option Mark :=
  if 0 < r.2 then some .opens
  else if r.2 < 0 then some .closes
  else if clauseRow r.1 then some .divides
  else none

def parseMarks (rows : List (Row × ℤ)) : List (Option Mark) := rows.map parseMark

def buildMarks (rows : List (Row × ℤ)) : List (Option Mark) := rows.map fun r => rowMark r.1

def NeedsTarget (r : Row × ℤ) : Prop :=
  0 < r.2 ∨ rowMark r.1 = some .opens ∨ rowMark r.1 = some .divides

structure JumpsMatch (rows : List (Row × ℤ)) (ir : IndexRun) : Prop where
  /-- Every row that opens or divides a block has a target: its next clause or its end. -/
  total : ∀ i r, rows[i]? = some r → NeedsTarget r →
    ∃ j, ir i = some j ∧ Target (parseMarks rows) i j
  forward : ∀ i j, ir i = some j → i < j
  closed : ∀ o r, rows[o]? = some r → 0 < r.2 →
    ∃ e, Block (parseMarks rows) o e ∧ Relation.TransGen (fun i j => ir i = some j) o e
  nested : ∀ o e o' e', Block (parseMarks rows) o e → Block (parseMarks rows) o' e' → o < o' →
    e' < e ∨ e < o'

structure Agrees (rows : List (Row × ℤ)) : Prop where
  mark : ∀ r ∈ rows, rowMark r.1 = parseMark r
  single : ∀ r ∈ rows, -1 ≤ r.2
  inside : ∀ i r, rows[i]? = some r → parseMark r = some .divides → 0 < openBefore rows i

/-! ## `Build` as a matching of marks -/

theorem buildLoop_eq (rows : List Row) (idx : ℕ) (stack : List ℕ) (ir : IndexRun) :
    buildLoop idx rows stack ir = match matchLoop idx (rows.map rowMark) stack ir with
      | some r => .ok r
      | none => .err stackEmpty := by
  induction rows generalizing idx stack ir with
  | nil => rfl
  | cons row rows ih =>
    rw [map_cons]
    rcases hmark : rowMark row with _ | _ | _ | _
    · simpa only [buildLoop, hmark, matchLoop] using ih _ _ _
    · simpa only [buildLoop, hmark, matchLoop] using ih _ _ _
    · cases stack with
      | nil => simp only [buildLoop, hmark, matchLoop]
      | cons jum stack => simpa only [buildLoop, hmark, matchLoop] using ih _ _ _
    · cases stack with
      | nil => simp only [buildLoop, hmark, matchLoop]
      | cons jum stack => simpa only [buildLoop, hmark, matchLoop] using ih _ _ _

section

variable {H : Host} {funcs : Option JsRuntime} {input : List GoString} {s : GoString}
  {vars : Option Vars} {restrict : Bool} {st : ParseState}

theorem build_eq_ok (hparse : parse H ⟨input, vars, funcs, restrict⟩ s = .ok st) (t : Template) :
    build H funcs input s vars restrict = .ok t ↔
      ∃ stack, run (buildMarks st.rows) = some (stack, t.indexRun) ∧
        t = ⟨vars, input, st.rows.map Prod.fst, t.indexRun, st.funcNotFound⟩ := by
  have hmarks : buildMarks st.rows = (st.rows.map Prod.fst).map rowMark := by
    rw [buildMarks, List.map_map]
    rfl
  rw [run, hmarks]
  simp only [build, hparse, Res.ok_bind, buildLoop_eq]
  rcases matchLoop 0 ((st.rows.map Prod.fst).map rowMark) [] fun _ => none with
    _ | ⟨stack, ir⟩
  · simp
  · simp only [Res.ok_bind, Res.ok.injEq, some.injEq, Prod.mk.injEq]
    constructor
    · rintro rfl
      exact ⟨stack, ⟨rfl, rfl⟩, rfl⟩
    · rintro ⟨_, ⟨-, rfl⟩, ht⟩
      exact ht.symm

end

/-! ## Counts and levels -/

section

variable {rows : List (Row × ℤ)}

theorem parseMarks_getElem? (i : ℕ) : (parseMarks rows)[i]? = rows[i]?.map parseMark := by
  simp [parseMarks]

theorem buildMarks_getElem? (i : ℕ) :
    (buildMarks rows)[i]? = rows[i]?.map fun r => rowMark r.1 := by
  simp [buildMarks]

variable {r : Row × ℤ}

theorem parseMark_eq_opens : parseMark r = some .opens ↔ 0 < r.2 := by
  simp only [parseMark]
  split_ifs <;> simp_all

theorem parseMark_eq_closes : parseMark r = some .closes ↔ r.2 < 0 := by
  simp only [parseMark]
  split_ifs <;> simp_all
  omega

theorem clauseRow_of_parseMark (h : parseMark r = some .divides) : clauseRow r.1 := by
  simp only [parseMark] at h
  split_ifs at h <;> simp_all

theorem rowMark_of_clauseRow {row : Row} (h : clauseRow row) : rowMark row = some .divides := by
  cases row with
  | nil => simp [clauseRow] at h
  | cons e es =>
    have he : e.mark = some .divides := by
      simp only [clauseRow, head?_cons, any_some, Bool.or_eq_true, Expression.is,
        beq_iff_eq] at h
      rcases h with h | h <;> simp [Expression.mark, Expression.isOpen, Expression.is, h, openExp]
    rw [rowMark, findSome?_cons, he]

theorem le_delta_parseMark (h : r.2 ≤ 1) : r.2 ≤ delta (parseMark r) := by
  simp only [parseMark]
  split_ifs <;> simp only [delta] <;> omega

theorem delta_parseMark (h : r.2 ≤ 1) (h' : -1 ≤ r.2) : delta (parseMark r) = r.2 := by
  simp only [parseMark]
  split_ifs <;> simp only [delta] <;> omega

theorem openBefore_le_level (h : ∀ r ∈ rows, r.2 ≤ 1) (i : ℕ) :
    openBefore rows i ≤ level (parseMarks rows) i := by
  induction i with
  | zero => simp [openBefore]
  | succ i ih =>
    cases hr : rows[i]? with
    | none =>
      rw [openBefore_of_le (by have := getElem?_eq_none_iff.mp hr; omega),
        ← openBefore_of_le (i := i) (getElem?_eq_none_iff.mp hr),
        Matching.level_succ_of_none (by rw [parseMarks_getElem?, hr]; rfl)]
      exact ih
    | some r =>
      rw [openBefore_succ hr,
        level_succ (m := parseMark r) (by rw [parseMarks_getElem?, hr]; rfl)]
      have := le_delta_parseMark (h r (mem_of_getElem? hr))
      omega

theorem level_parseMarks (h : ∀ r ∈ rows, r.2 ≤ 1) (h' : ∀ r ∈ rows, -1 ≤ r.2) (i : ℕ) :
    level (parseMarks rows) i = openBefore rows i := by
  have hmem : ∀ r ∈ rows.take i, delta (parseMark r) = r.2 := fun r hr =>
    delta_parseMark (h r (List.mem_of_mem_take hr)) (h' r (List.mem_of_mem_take hr))
  rw [level, openBefore, parseMarks, ← map_take, List.map_map]
  exact congrArg List.sum (map_congr_left hmem)

theorem single_of_level (h : ∀ r ∈ rows, r.2 ≤ 1)
    (hlev : level (parseMarks rows) rows.length = (rows.map Prod.snd).sum) :
    ∀ r ∈ rows, -1 ≤ r.2 := by
  induction rows with
  | nil => simp
  | cons r rows ih =>
    have hle := openBefore_le_level (fun r' hr' => h r' (mem_cons_of_mem _ hr')) rows.length
    rw [openBefore_of_le le_rfl] at hle
    have hr := le_delta_parseMark (h r mem_cons_self)
    simp only [level, parseMarks, map_cons, length_cons, take_succ_cons,
      sum_cons] at hlev hle
    have hrows := ih (fun r' hr' => h r' (mem_cons_of_mem _ hr')) (by
      simp only [level, parseMarks]; omega)
    intro r' hr'
    rcases mem_cons.mp hr' with rfl | hmem
    · have hd : delta (parseMark r') = r'.2 := by omega
      simp only [parseMark] at hd
      split_ifs at hd <;> simp only [delta] at hd <;> omega
    · exact hrows r' hmem

variable {i : ℕ}

theorem Counted.level_pos_of_closes (h : Counted rows)
    (hi : (parseMarks rows)[i]? = some (some .closes)) : 0 < level (parseMarks rows) i := by
  rw [parseMarks_getElem?, map_eq_some_iff] at hi
  obtain ⟨r, hr, hmark⟩ := hi
  have hneg := parseMark_eq_closes.mp hmark
  have hsucc := openBefore_succ hr
  have := h.nonneg (i + 1)
  have := openBefore_le_level h.le_one i
  omega

/-! ## The two directions -/

theorem Agrees.marks_eq (h : Agrees rows) : buildMarks rows = parseMarks rows :=
  map_congr_left h.mark

theorem Agrees.pushes_of_needsTarget (h : Agrees rows)
    (hr : rows[i]? = some r) (hn : NeedsTarget r) : Pushes (parseMarks rows) i := by
  have hmark := h.mark r (mem_of_getElem? hr)
  simp only [Pushes, parseMarks_getElem?, hr, Option.map_some, some.injEq]
  rcases hn with hpos | ho | hd
  · exact .inl (parseMark_eq_opens.mpr hpos)
  · exact .inl (hmark ▸ ho)
  · exact .inr (hmark ▸ hd)

theorem Agrees.run_isSome (h : Agrees rows) (hc : Counted rows) :
    (run (buildMarks rows)).isSome := by
  rw [h.marks_eq, Matching.run_isSome_iff]
  rintro p (hd | hcl)
  · rw [parseMarks_getElem?, map_eq_some_iff] at hd
    obtain ⟨r, hr, hmark⟩ := hd
    rw [level_parseMarks hc.le_one h.single]
    exact h.inside p r hr hmark
  · exact hc.level_pos_of_closes hcl

theorem Agrees.jumpsMatch (h : Agrees rows) (hc : Counted rows)
    (hsum : (rows.map Prod.snd).sum = 0) {stack : List ℕ} {ir : IndexRun}
    (hm : Matched (buildMarks rows) (buildMarks rows).length stack ir) : JumpsMatch rows ir := by
  rw [h.marks_eq] at hm
  have htable : ∀ i, Pushes (parseMarks rows) i → ∃ j, ir i = some j := by
    refine hm.total_iff.mpr ?_
    rw [level_parseMarks hc.le_one h.single, openBefore_of_le (by simp [parseMarks]), hsum]
  have htotal : ∀ i, Pushes (parseMarks rows) i → ∃ j, Target (parseMarks rows) i j := by
    intro i hi
    obtain ⟨j, hj⟩ := htable i hi
    exact ⟨j, (hm.target_iff i j).mp hj⟩
  refine ⟨?_, ?_, ?_, ?_⟩
  · intro i r hr hn
    obtain ⟨j, hj⟩ := htable i (h.pushes_of_needsTarget hr hn)
    exact ⟨j, hj, (hm.target_iff i j).mp hj⟩
  · exact fun i j hij => ((hm.target_iff i j).mp hij).lt
  · intro o r hr hpos
    have hopens : (parseMarks rows)[o]? = some (some .opens) := by
      rw [parseMarks_getElem?, hr, Option.map_some, parseMark_eq_opens.mpr hpos]
    obtain ⟨e, hlt, hcl, hlev, hfirst, htrans⟩ := Pushes.exists_closes htotal (.inl hopens)
    exact ⟨e, ⟨hopens, hcl, hlt, hlev, hfirst⟩,
      Relation.TransGen.mono (fun i j hij => (hm.target_iff i j).mpr hij) o e htrans⟩
  · exact fun o e o' e' hb hb' hlt => hb.nested hb' hlt

section Necessity

variable {stack : List ℕ} {ir : IndexRun} (hj : JumpsMatch rows ir)
  (hm : Matched (buildMarks rows) (buildMarks rows).length stack ir)
include hj

variable {i : ℕ}

theorem JumpsMatch.target_of_pushes (hi : Pushes (parseMarks rows) i) :
    ∃ j, ir i = some j ∧ Target (parseMarks rows) i j := by
  simp only [Pushes, parseMarks_getElem?, map_eq_some_iff] at hi
  rcases hi with ⟨r, hr, hmark⟩ | ⟨r, hr, hmark⟩
  · exact hj.total i r hr (.inl (parseMark_eq_opens.mp hmark))
  · refine hj.total i r hr (.inr (.inr (rowMark_of_clauseRow ?_)))
    exact clauseRow_of_parseMark hmark

theorem JumpsMatch.target_of_build_pushes (hi : Pushes (buildMarks rows) i) :
    ∃ j, ir i = some j ∧ Target (parseMarks rows) i j := by
  simp only [Pushes, buildMarks_getElem?, map_eq_some_iff] at hi
  rcases hi with ⟨r, hr, hmark⟩ | ⟨r, hr, hmark⟩
  · exact hj.total i r hr (.inr (.inl hmark))
  · exact hj.total i r hr (.inr (.inr hmark))

include hm

theorem JumpsMatch.target_iff {j : ℕ} :
    Target (parseMarks rows) i j ↔ Target (buildMarks rows) i j := by
  constructor
  · intro ht
    obtain ⟨j', hij', ht'⟩ := hj.target_of_pushes ht.pushes
    obtain rfl := ht.unique ht'
    exact (hm.target_iff i j).mp hij'
  · intro ht
    obtain ⟨j', hij', ht'⟩ := hj.target_of_build_pushes ht.pushes
    have hij := (hm.target_iff i j).mpr ht
    cases hij.symm.trans hij'
    exact ht'

theorem JumpsMatch.pushes_iff (i : ℕ) :
    Pushes (parseMarks rows) i ↔ Pushes (buildMarks rows) i := by
  constructor
  · intro hi
    obtain ⟨j, -, ht⟩ := hj.target_of_pushes hi
    exact ((hj.target_iff hm).mp ht).pushes
  · intro hi
    obtain ⟨j, -, ht⟩ := hj.target_of_build_pushes hi
    exact ht.pushes

omit hm in
theorem JumpsMatch.level_pos (hc : Counted rows) (hi : Pops (parseMarks rows) i) :
    0 < level (parseMarks rows) i := by
  rcases hi with hd | hcl
  · -- the targets lead from the clause to an end, which is at the level of the clause
    obtain ⟨e, -, hcl, hlev, -, -⟩ := Pushes.exists_closes
      (fun p hp => (hj.target_of_pushes hp).imp fun _ h => h.2) (p := i) (.inr hd)
    have hpos := hc.level_pos_of_closes hcl
    rw [hlev, level_succ hd] at hpos
    simpa [delta] using hpos
  · exact hc.level_pos_of_closes hcl

theorem JumpsMatch.pops_iff (hc : Counted rows) (i : ℕ) :
    Pops (parseMarks rows) i ↔ Pops (buildMarks rows) i := by
  constructor
  · intro hi
    obtain ⟨p, ht⟩ := hi.exists_target (hj.level_pos hc hi)
    exact ((hj.target_iff hm).mp ht).pops
  · intro hi
    obtain ⟨p, ht⟩ := hi.exists_target (hm.pops_pos i hi.lt hi)
    exact ((hj.target_iff hm).mpr ht).pops

theorem JumpsMatch.agrees (hc : Counted rows) (hsum : (rows.map Prod.snd).sum = 0) :
    Agrees rows := by
  have hmarks : parseMarks rows = buildMarks rows :=
    Matching.ext_of_pushes_pops (by simp [parseMarks, buildMarks]) (hj.pushes_iff hm)
      (hj.pops_iff hm hc)
  have hlev : level (parseMarks rows) rows.length = 0 := by
    have htotal := hm.total_iff.mp fun p hp => by
      obtain ⟨q, hq, -⟩ := hj.target_of_build_pushes hp
      exact ⟨q, hq⟩
    rwa [← hmarks, show (parseMarks rows).length = rows.length by simp [parseMarks]] at htotal
  have hsingle := single_of_level hc.le_one (hlev.trans hsum.symm)
  refine ⟨?_, hsingle, ?_⟩
  · exact fun r hr => ((map_inj_left.mp hmarks) r hr).symm
  · intro i r hr hmark
    rw [← level_parseMarks hc.le_one hsingle]
    exact hj.level_pos hc (.inl (by rw [parseMarks_getElem?, hr, Option.map_some, hmark]))

end Necessity

end

/-- `Build` makes of what `Parse` accepts a table of jumps exactly when the two agree on every
row. -/
theorem build_jumps_iff (H : Host) (funcs : Option JsRuntime) (input : List GoString)
    (s : GoString) (vars : Option Vars) (restrict : Bool) (st : ParseState)
    (hparse : parse H ⟨input, vars, funcs, restrict⟩ s = .ok st) :
    (∃ t, build H funcs input s vars restrict = .ok t ∧ JumpsMatch st.rows t.indexRun) ↔
      Agrees st.rows := by
  obtain ⟨hc, hsum⟩ := parse_counted hparse
  constructor
  · rintro ⟨t, hbuild, hj⟩
    obtain ⟨stack, hrun, -⟩ := (build_eq_ok hparse t).mp hbuild
    exact hj.agrees (run_matched hrun) hc hsum
  · intro h
    obtain ⟨⟨stack, ir⟩, hrun⟩ := isSome_iff_exists.mp (h.run_isSome hc)
    refine ⟨⟨vars, input, st.rows.map Prod.fst, ir, st.funcNotFound⟩, ?_, ?_⟩
    · exact (build_eq_ok hparse _).mpr ⟨stack, hrun, rfl⟩
    · exact h.jumpsMatch hc hsum (run_matched hrun)

theorem agrees_if_else : Agrees
    [([⟨"if", ["(\"a\")"]⟩], 1), ([⟨"else", []⟩], 0),
      ([⟨"end", []⟩], -1)] where
  mark := by decide
  single := by decide
  inside := by
    intro i r hr hmark
    match i, hr with
    | 0, hr =>
      cases hr
      revert hmark
      decide
    | 1, hr => decide
    | 2, hr =>
      cases hr
      revert hmark
      decide
    | i + 3, hr => simp at hr

/-- A block with a clause gets its jumps. -/
theorem build_if_else_jumps : ∃ st t,
    parse plainHost ⟨[], some [], none, true⟩ (templateText ["if (\"a\")", "else", "end"]) =
      .ok st ∧
    build plainHost none [] (templateText ["if (\"a\")", "else", "end"]) (some []) true = .ok t ∧
    JumpsMatch st.rows t.indexRun := by
  have hrows : (parse plainHost ⟨[], some [], none, true⟩
      (templateText ["if (\"a\")", "else", "end"])).toOption.map ParseState.rows = some
      [([⟨"if", ["(\"a\")"]⟩], 1), ([⟨"else", []⟩], 0),
        ([⟨"end", []⟩], -1)] := by
    decide +kernel
  obtain ⟨st, hst, hrows⟩ := map_eq_some_iff.mp hrows
  rw [Res.toOption_eq_some] at hst
  obtain ⟨t, ht⟩ := (build_jumps_iff plainHost none [] _ (some []) true st hst).mpr
    (hrows ▸ agrees_if_else)
  exact ⟨st, t, hst, ht⟩

/-- `Parse` takes `sub` for the start of a block and `Build` does not. -/
theorem build_sub_end_fails : (parse plainHost ⟨[], some [], none, true⟩
      (templateText ["sub (3) (1)", "end"])).toOption.isSome ∧
    (build plainHost none [] (templateText ["sub (3) (1)", "end"]) (some []) true).error? =
      some stackEmpty := by
  decide +kernel

end Kairos

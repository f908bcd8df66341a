import Kairos.Template.Blocks
import Kairos.Template.Scopes

/-!
# Blocks and scopes

A block should leave the scopes as it found them. A row that opens a block opens a scope and an
`end` closes one, so there should be as many scopes as the `level` of the row. The interpreter keeps
to this except where it jumps.
-/

namespace Kairos

open List
open Matching (Matched Block Target Pushes Pops level level_succ delta)
open Runs (Steps Reaches Ends)
open Effects.Comp (Keeps)

/-! ## Frames -/

def VarTemp.keys (vt : VarTemp) : List (List GoString) := vt.map fun scope => scope.map Kv.key

structure Frames (keys : List (List GoString)) (vt : VarTemp) (n : ℤ) : Prop where
  split : ∃ inner outer : VarTemp, vt = inner ++ outer ∧ outer.keys = keys ∧ (inner.length : ℤ) = n

section

variable {keys : List (List GoString)} {vt vt' : VarTemp} {n : ℤ} {kv : Kv} {scope : List Kv}

theorem replaceNewest_keys {scope' : List Kv}
    (h : VarTemp.replaceNewest kv scope = some scope') : scope'.map Kv.key = scope.map Kv.key := by
  induction scope generalizing scope' with
  | nil => cases h
  | cons e scope ih =>
    unfold VarTemp.replaceNewest at h
    by_cases he : e.key = kv.key
    · rw [if_pos he] at h
      cases h
      rw [map_cons, map_cons, he]
    · rw [if_neg he] at h
      obtain ⟨rest, hrest, rfl⟩ := Option.map_eq_some_iff.mp h
      rw [map_cons, map_cons, ih hrest]

theorem replace_keys (kv : Kv) (vt : VarTemp) :
    VarTemp.keys (vt.map fun scope => (VarTemp.replaceNewest kv scope).getD scope) = vt.keys := by
  unfold VarTemp.keys
  rw [map_map]
  refine map_congr_left fun scope _ => ?_
  show ((VarTemp.replaceNewest kv scope).getD scope).map Kv.key = scope.map Kv.key
  cases h : VarTemp.replaceNewest kv scope with
  | none => rfl
  | some scope' => exact replaceNewest_keys h

variable (h : Frames keys vt n)
include h

theorem Frames.append : Frames keys vt.append (n + 1) := by
  obtain ⟨inner, outer, rfl, hkeys, hn⟩ := h.split
  refine ⟨[] :: inner, outer, rfl, hkeys, ?_⟩
  rw [length_cons]
  omega

theorem Frames.cons (hn : 0 < n) :
    ∃ (scope : List Kv) (inner outer : VarTemp), vt = (scope :: inner) ++ outer ∧
      outer.keys = keys ∧ (inner.length : ℤ) + 1 = n := by
  obtain ⟨inner, outer, rfl, hkeys, hlen⟩ := h.split
  cases inner with
  | nil => simp at hlen; omega
  | cons scope inner =>
    rw [length_cons] at hlen
    exact ⟨scope, inner, outer, rfl, hkeys, by omega⟩

theorem Frames.pop (hn : 0 < n) : Frames keys (vt.pop.getD vt) (n - 1) := by
  obtain ⟨scope, inner, outer, rfl, hkeys, hlen⟩ := h.cons hn
  exact ⟨inner, outer, rfl, hkeys, by omega⟩

theorem Frames.cover (hn : 0 < n) {outer : VarTemp}
    (hvt : vt = scope :: outer) (scope' : List Kv) : Frames keys (scope' :: outer) n := by
  obtain ⟨scope₀, inner, outer₀, heq, hkeys, hlen⟩ := h.cons hn
  rw [hvt] at heq
  cases heq
  refine ⟨scope' :: inner, outer₀, rfl, hkeys, ?_⟩
  rw [length_cons]
  omega

theorem Frames.push (hn : 0 < n) (hpush : vt.push kv = some vt') : Frames keys vt' n := by
  cases vt with
  | nil => cases hpush
  | cons scope outer =>
    cases hpush
    exact h.cover hn rfl _

theorem Frames.set (hn : 0 < n) (hset : vt.set kv = some vt') : Frames keys vt' n := by
  unfold VarTemp.set at hset
  by_cases hany : (vt.any fun scope => (VarTemp.replaceNewest kv scope).isSome)
  · rw [if_pos hany] at hset
    cases hset
    obtain ⟨inner, outer, rfl, hkeys, hlen⟩ := h.split
    refine ⟨_, _, map_append, ?_, by rw [length_map]; exact hlen⟩
    rw [replace_keys, hkeys]
  · rw [if_neg hany] at hset
    exact h.push hn hset

theorem Frames.effect (hn : 0 < n) {e : Expression} (heff : ScopeEffect e vt vt')
    (hcond : e.is .ifExp ∨ e.is .elseifExp → e.hasCondition) : Frames keys vt' n := by
  cases heff with
  | same => exact h
  | defines _ x _ v vt' hpush => exact h.push hn hpush
  | assigns _ x _ v vt' hset => exact h.set hn hset
  | opens hif hno => rw [hcond (.inl hif)] at hno; cases hno
  | clears hif hno => rw [hcond (.inr hif)] at hno; cases hno

end

/-! ## Runs that keep the balance -/

/-- It opens a scope only where it opens a block, closes one only where it closes a block, and its
conditions are known. An `end` and a `range` are the last of their rows. -/
@[mk_iff]
structure RegularRow (exp : Row) : Prop where
  opens : ∀ e ∈ exp, e.isOpen → rowMark exp = some .opens
  closes : ∀ e ∈ exp, e.is .endExp → rowMark exp = some .closes
  last : EndsLast exp
  condition : ∀ e ∈ exp, e.is .ifExp ∨ e.is .elseifExp → e.hasCondition

@[mk_iff]
structure CleanStage (H : Host) (t : Program) (row : ℕ) (idx : ℤ) (e : Expression) (s : State) :
    Prop where
  targeted : e.is .ifExp ∨ e.is .elseExp ∨ e.is .rangeExp → t.target idx ≠ 0
  jump : jumpsForward H t e s → t.closesAt (t.target idx) = false
  reply : e.is .sendsync → t.marks[row]? ≠ some (some .opens)
  /-- It starts another round of a range only from a block directly within it. -/
  round : e.is .endExp → ∀ r ∈ s.outerRound idx,
    level t.marks idx.toNat = level t.marks (r.startIndex.toNat + 1) + 1

def Point.Clean (H : Host) (t : Program) : Point → Prop
  | .row i _ _ => ∀ exp ∈ t.exps[i]?, RegularRow exp
  | .stage i idx _ (e :: _) s => (∀ exp ∈ t.exps[i]?, RegularRow exp) ∧ CleanStage H t i idx e s
  | .stage _ _ _ [] _ => True

def Program.depth (t : Program) (i : ℕ) : ℤ :=
  level t.marks i + if t.marks[i]? = some (some .opens) then 1 else 0

def Point.Balanced (t : Program) (o : ℕ) (keys : List (List GoString)) : Point → Prop
  | .row i expIdx s =>
    Frames keys s.varTemp (level t.marks i - level t.marks o) ∧
      ∀ exp ∈ t.exps[i]?, exp.length ≤ expIdx → rowMark exp ≠ some .closes
  | .stage _ idx _ [] s => Frames keys s.varTemp (level t.marks (idx.toNat + 1) - level t.marks o)
  | .stage i idx _ (_ :: _) s =>
    idx = i ∧ Frames keys s.varTemp (t.depth i - level t.marks o)

section

variable {exp : Row} {t : Program} {i : ℕ}

theorem RegularRow.any_isOpen (h : RegularRow exp) :
    exp.any Expression.isOpen ↔ rowMark exp = some .opens := by
  constructor
  · intro hany
    obtain ⟨e, he, hopen⟩ := any_eq_true.mp hany
    exact h.opens e he hopen
  · intro hm
    obtain ⟨e, he, hmark⟩ := exists_mark hm
    exact any_eq_true.mpr ⟨e, he, isOpen_of_mark hmark⟩

theorem depth_eq_level (hexp : t.exps[i]? = some exp) (hm : rowMark exp ≠ some .closes) :
    t.depth i = level t.marks (i + 1) := by
  have hmark := marks_getElem? hexp
  unfold Program.depth
  rw [level_succ hmark, hmark]
  rcases hrow : rowMark exp with _ | _ | _ | _
  · simp [delta]
  · simp [delta]
  · simp [delta]
  · exact absurd hrow hm

theorem depth_of_closes (hexp : t.exps[i]? = some exp) (hm : rowMark exp = some .closes) :
    t.depth i = level t.marks i ∧ t.depth i - 1 = level t.marks (i + 1) := by
  have hmark := marks_getElem? hexp
  rw [hm] at hmark
  unfold Program.depth
  rw [level_succ hmark, hmark]
  simp [delta]
  omega

end

/-! ## A step keeps the balance -/

section

variable {H : Host} {t : Program} {o e' i edx : ℕ} {keys : List (List GoString)} {exp : Row}
  {e : Expression} {out : Out} {err : Option GoString} {s s' : State} {idx' : ℤ}

theorem State.advance_varTemp (s : State) : s.advance.varTemp = s.varTemp := by
  unfold State.advance
  split <;> rfl

theorem depth_pos (hblock : Block t.marks o e') (ho : o ≤ i) (he : i ≤ e') :
    0 < t.depth i - level t.marks o := by
  have hopen := level_succ hblock.opens
  simp only [delta] at hopen
  unfold Program.depth
  rcases ho.lt_or_eq with hlt | rfl
  · have hle := hblock.level_le hlt he
    split_ifs <;> omega
  · rw [if_pos hblock.opens]
    omega

theorem Moves.frames (hm : Moves H t i e out err s idx' s') (hb : t.Built)
    (hexp : t.exps[i]? = some exp) (he : exp[edx]? = some e) (hreg : RegularRow exp)
    (hblock : Block t.marks o e') (ho : o ≤ i) (hi : i ≤ e') (hn : Nested t s)
    (hahead : Ahead t i i edx s) (htarget : e.is .rangeExp → t.target i ≠ 0)
    (hround : e.is .endExp → ∀ r ∈ s.outerRound i,
      level t.marks i = level t.marks (r.startIndex.toNat + 1) + 1)
    (hframes : Frames keys s.varTemp (t.depth i - level t.marks o)) :
    (idx' = i ∧ e.is .endExp = false ∧ Frames keys s'.varTemp (t.depth i - level t.marks o)) ∨
      ((e.is .endExp ∨ e.is .rangeExp) ∧ ((o : ℤ) ≤ idx' →
        Frames keys s'.varTemp (level t.marks (idx'.toNat + 1) - level t.marks o))) := by
  have hmem : e ∈ exp := mem_of_getElem? he
  have hpos := depth_pos hblock ho hi
  have hpop : Frames keys s.popScope.varTemp (t.depth i - level t.marks o - 1) := hframes.pop hpos
  -- an `end` that goes on with the next row
  have hend : e.is .endExp → Frames keys s.popScope.varTemp
      (level t.marks ((i : ℤ).toNat + 1) - level t.marks o) := by
    intro hk
    have hdepth := (depth_of_closes hexp (hreg.closes e hmem hk)).2
    rw [Int.toNat_natCast, ← hdepth, sub_right_comm]
    exact hpop
  cases hm with
  | plain _ hk _ => exact .inl ⟨rfl, hk, hframes⟩
  | breaks hk => exact .inl ⟨rfl, Expression.not_is hk (by decide), hframes⟩
  | skipped r h _ _ =>
    refine .inr ⟨.inr h.isRange, fun _ => ?_⟩
    obtain ⟨j, hj, htarg, hlev⟩ := hb.level_target (htarget h.isRange)
    have hopens := hreg.opens e hmem (Expression.isOpen_of_range h.isRange)
    have hdepth := depth_eq_level hexp (by rw [hopens]; simp)
    have hlt := htarg.lt
    have hrow : (t.target i - 1).toNat + 1 = j := by omega
    rw [hrow, hlev, ← hdepth]
    exact hframes
  | entered r h _ kv kvs _ scope outer hvt =>
    refine .inr ⟨.inr h.isRange, fun _ => ?_⟩
    have hopens := hreg.opens e hmem (Expression.isOpen_of_range h.isRange)
    rw [Int.toNat_natCast, ← depth_eq_level hexp (by rw [hopens]; simp)]
    exact hframes.cover hpos hvt _
  | endsBlock hk _ | endsOwn hk | endsLast hk | endsInner hk =>
    exact .inr ⟨.inl hk, fun _ => hend hk⟩
  | restarts hk r hcur hstop kv hkv =>
    refine .inr ⟨.inl hk, fun _ => ?_⟩
    -- the range ends at the target of its start, which is at the level behind that start
    have hok := hn.ok r (State.current_mem hcur)
    obtain ⟨i', -, hi', -⟩ := hb.target_spec hok.targeted
    have htarg := hok.endIndex_eq
    have hne := hok.targeted
    rw [hi'] at htarg hne
    obtain ⟨j, hj, -, hlev⟩ := hb.level_target hne
    obtain rfl : j = i := by omega
    have hdepth := (depth_of_closes hexp (hreg.closes e hmem hk)).1
    rw [hi', Int.toNat_natCast, ← hlev, ← hdepth, State.advance_varTemp]
    have happ := hpop.append
    rw [sub_add_cancel] at happ
    exact happ.cover hpos rfl _
  | restartsOuter hk r q r' outer hcur hstop hover hstack kv hkv =>
    refine .inr ⟨.inl hk, fun hle => ?_⟩
    have hlev := hround hk r' (outerRound_eq hcur hstop hover hstack hkv)
    -- the outer range was started in this block, so two of the scopes belong to the block
    have hsorted := hn.sorted
    rw [hstack, pairwise_cons] at hsorted
    have hstart := hsorted.1 r' mem_cons_self
    have hq := hahead.starts q (State.mem_ranges_of_mem_stack (by rw [hstack]; simp))
    have hin := hblock.level_le (k := r'.startIndex.toNat + 1) (by omega) (by omega)
    have hopen := level_succ hblock.opens
    simp only [delta] at hopen
    have hdepth := (depth_of_closes hexp (hreg.closes e hmem hk)).1
    have hpop' : Frames keys s.popScope.popScope.varTemp (t.depth i - level t.marks o - 1 - 1) :=
      hpop.pop (by omega)
    have happ := hpop'.append
    rw [show t.depth i - level t.marks o - 1 - 1 + 1 =
      level t.marks (r'.startIndex.toNat + 1) - level t.marks o by omega] at happ
    exact happ.cover (by omega) rfl _

theorem Leaves.frames (h : Leaves H t i e s idx' s') (hb : t.Built) (hexp : t.exps[i]? = some exp)
    (hclean : CleanStage H t i i e s) (hexec : ∀ out err s₀, Executed H t i e s out err s₀ →
      Frames keys s₀.varTemp (t.depth i - level t.marks o)) :
    Frames keys s'.varTemp (level t.marks (idx' + 1).toNat - level t.marks o) := by
  obtain ⟨out, err, s₀, idx₁, hx, hm, hj⟩ := h.moved
  obtain ⟨rfl, hsame⟩ := hj.not_moved hx hm
  have hvt : s'.varTemp = s₀.varTemp := by
    rcases hsame with rfl | ⟨-, rfl⟩ <;> rfl
  have hframes := hexec out err s₀ hx
  rw [← hvt] at hframes
  have hne : t.target i ≠ 0 := by
    cases hj with
    | elseRow hk => exact hclean.targeted (.inr (.inl hk))
    | ifFalse hk _ => exact hclean.targeted (.inl hk)
    | forward _ hpos => exact hpos.ne'
  obtain ⟨j, hj', htarg, hlev⟩ := hb.level_target hne
  rw [depth_eq_level hexp (Target.not_closes hexp htarg), ← hlev] at hframes
  -- to the target itself, or behind it where it closes no block
  have hbehind : jumpsForward H t e s →
      Frames keys s'.varTemp (level t.marks (t.target i + 1).toNat - level t.marks o) := by
    intro hforward
    have hclose := hclean.jump hforward
    rw [hj'] at hclose ⊢
    rw [show ((j : ℤ) + 1).toNat = j + 1 by omega, level_behind_target htarg hclose]
    exact hframes
  cases hj with
  | elseRow hk =>
    rw [hj', show ((j : ℤ) - 1 + 1).toNat = j by omega]
    exact hframes
  | ifFalse hk hout => exact hbehind (hx.jumpsForward h.not_send (.inl ⟨hk, hout⟩))
  | forward hor hpos => exact hbehind (hx.jumpsForward h.not_send (.inr hor))

theorem Executed.frames {n : ℤ} {idx : ℤ} (hx : Executed H t idx e s out err s')
    (hframes : Frames keys s.varTemp n) (hn : 0 < n)
    (hcond : e.is .ifExp ∨ e.is .elseifExp → e.hasCondition) : Frames keys s'.varTemp n := by
  have heff := execute_scopes H t.env e s.expInput
  cases hx with
  | ok out m h => exact hframes.effect hn (heff.ok h) hcond
  | err msg m h => exact hframes.effect hn (heff.err h) hcond

theorem balanced_next {s : State} (hexp : t.exps[i]? = some exp) (he : exp[edx]? = some e)
    (hreg : RegularRow exp) (hend : e.is .endExp = false)
    (hframes : Frames keys s.varTemp (t.depth i - level t.marks o)) :
    Point.Balanced t o keys (.stage i i (edx + 1) (exp.drop (edx + 1)) s) := by
  cases hrest : exp.drop (edx + 1) with
  | nil =>
    have hlen : exp.length ≤ edx + 1 := drop_eq_nil_iff.mp hrest
    show Frames keys s.varTemp (level t.marks ((i : ℤ).toNat + 1) - level t.marks o)
    rw [Int.toNat_natCast, ← depth_eq_level hexp (hreg.last.not_closes he hlen hend)]
    exact hframes
  | cons e₁ rest => exact ⟨rfl, hframes⟩

theorem Point.Balanced.enter {k : ℕ} (hp : Point.Balanced t o keys (.row i k s))
    (hexp : t.exps[i]? = some exp) (hreg : RegularRow exp) :
    Point.Balanced t o keys (.stage i i k (exp.drop k) (openScope exp s)) := by
  obtain ⟨hframes, hclosed⟩ := hp
  have hopen : Frames keys (openScope exp s).varTemp (t.depth i - level t.marks o) := by
    have hmark := marks_getElem? hexp
    unfold openScope Program.depth
    rw [hmark]
    by_cases hany : exp.any Expression.isOpen
    · rw [if_pos hany, hreg.any_isOpen.mp hany, if_pos rfl, add_sub_right_comm]
      exact hframes.append
    · have hno : ¬ some (rowMark exp) = some (some Matching.Bracket.opens) := fun h =>
        hany (hreg.any_isOpen.mpr (Option.some.inj h))
      rw [if_neg hany, if_neg hno, add_zero]
      exact hframes
  cases hrest : exp.drop k with
  | nil =>
    have hnot := hclosed exp hexp (drop_eq_nil_iff.mp hrest)
    show Frames keys _ (level t.marks ((i : ℤ).toNat + 1) - level t.marks o)
    rw [Int.toNat_natCast, ← depth_eq_level hexp hnot]
    exact hopen
  | cons e₁ rest => exact ⟨rfl, hopen⟩

end

section

variable {H : Host} {t : Program} {o e' : ℕ} {keys : List (List GoString)} {p q : Point}

theorem not_closes_of_start (i : ℕ) :
    ∀ exp ∈ t.exps[i]?, exp.length ≤ 0 → rowMark exp ≠ some .closes := by
  intro exp _ hlen
  rw [length_eq_zero_iff.mp (Nat.le_zero.mp hlen)]
  simp [rowMark]

theorem Point.Balanced.step (hp : p.Balanced t o keys) (hb : t.Built) (hfits : t.Fits)
    (hblock : Block t.marks o e') (hin : p.Inside o e' ∨ ∃ s, p = .row o 0 s) (hsound : p.Sound t)
    (hclean : p.Clean H t) (h : Follows H t p q) (hq : q.Inside o e' ∨ ∃ s, q = .row (e' + 1) 0 s) :
    q.Balanced t o keys := by
  cases p with
  | row i k s =>
    obtain ⟨exp, hexp, rfl⟩ := follows_row h
    exact hp.enter hexp (hclean exp hexp)
  | stage i idx edx rest s =>
    have hin : o ≤ i ∧ i ≤ e' ∧ (o : ℤ) ≤ idx := hin.resolve_right (by simp)
    obtain ⟨ho, hi, hidx⟩ := hin
    cases rest with
    | nil =>
      rw [follows_nil h]
      refine ⟨?_, not_closes_of_start _⟩
      rw [show (idx + 1).toNat = idx.toNat + 1 by omega]
      exact hp
    | cons e rest =>
      obtain ⟨rfl, hframes⟩ := hp
      obtain ⟨⟨exp, hexp, hrest⟩, hn, hplace⟩ := id hsound
      obtain ⟨he, hrest⟩ := getElem?_of_drop hrest
      obtain ⟨hreg, hstage⟩ := hclean
      have hreg := hreg exp hexp
      have hpos := depth_pos hblock ho hi
      have hcond := hreg.condition e (mem_of_getElem? he)
      have hexec : ∀ out err s₀, Executed H t i e s out err s₀ →
          Frames keys s₀.varTemp (t.depth i - level t.marks o) := fun out err s₀ hx =>
        hx.frames hframes hpos hcond
      have hahead : Ahead t i i edx s := hplace.resolve_right fun hback => lt_irrefl _ hback.lt
      rcases follows_stage h with hstep | ⟨s', v, hsusp, rfl⟩
      · cases hstep with
        | sends s' hsend =>
          obtain ⟨v, vs, m, reciever, hx, -, rfl⟩ := hsend.sent
          have hf := hexec _ _ _ (.ok _ m hx)
          rw [hrest]
          exact balanced_next hexp he hreg (Expression.not_is_of_isSend hsend.isSend rfl) hf
        | continues idx' s' hcont =>
          obtain ⟨out, m, s₁, hx, hm, rfl, -⟩ := hcont.moved
          have hsame : SameRanges s { s with toMem := m } := ⟨rfl, rfl⟩
          have hahead' : Ahead t i i edx { s with toMem := m } := ⟨hahead.place, hahead.starts⟩
          rcases hm.frames hb hexp he hreg hblock ho hi (hsame.nested hn) hahead'
            (fun hr => hstage.targeted (.inr (.inr hr))) hstage.round
            (hexec _ _ _ (.ok out m hx)) with ⟨rfl, hend, hf⟩ | ⟨hk, hf⟩
          · rw [hrest]
            exact balanced_next hexp he hreg hend hf
          · rw [hrest, hreg.last.drop_eq_nil he hk]
            refine hf ?_
            rcases hq with hq | ⟨_, hq⟩
            · exact hq.2.2
            · cases hq
        | leaves idx' s' hleave =>
          exact ⟨hleave.frames hb hexp hstage hexec, not_closes_of_start _⟩
      · -- the call after the reply enters the row again, which opens no scope
        rw [hsusp.resumes hb hfits hsound rfl v]
        obtain ⟨w, ws, m, reciever, hx, -, rfl⟩ := hsusp.sent
        have hf := hexec _ _ _ (.ok _ m hx)
        unfold Program.depth at hf
        rw [if_neg (hstage.reply hsusp.isSync), add_zero] at hf
        refine ⟨hf, fun exp' hexp' hle => ?_⟩
        cases hexp.symm.trans hexp'
        exact hreg.last.not_closes he hle (Expression.not_is hsusp.isSync (by decide))

theorem balanced_of_stays {s₀ s : State} (hstart : Started H t s₀) (hfits : t.Fits)
    (hclean : ∀ p, Visits H t s₀ p → p.Clean H t) (htarget : ∀ p, Visits H t s₀ p → p.Targeted t)
    (hblock : Block t.marks o e') (hs : Visits H t s₀ (.row o 0 s))
    (h : Stays H t o e' (.row o 0 s) q) :
    q.Balanced t o s.varTemp.keys ∧ Visits H t s₀ q ∧ (q.Inside o e' ∨ ∃ s, q = .row o 0 s) := by
  induction h with
  | refl =>
    refine ⟨⟨⟨[], s.varTemp, rfl, rfl, ?_⟩, not_closes_of_start _⟩, hs, .inr ⟨s, rfl⟩⟩
    simp
  | @tail p q _ hstep ih =>
    obtain ⟨hbal, hvisit, hin⟩ := ih
    have hsound := hvisit.sound hstart hfits htarget
    exact ⟨hbal.step hstart.built hfits hblock hin hsound (hclean p hvisit) hstep.1 (.inl hstep.2),
      hvisit.follows hstep.1, .inl hstep.2⟩

end

theorem Point.Clean.targeted {H : Host} {t : Program} {p : Point} (h : p.Clean H t) :
    p.Targeted t := by
  cases p with
  | row i k s => trivial
  | stage i idx edx rest s =>
    cases rest with
    | nil => trivial
    | cons e rest => exact h.2.targeted

/-- In a clean session, a block that is entered at its first row and left at its end leaves the
scopes and their variables as they were. -/
theorem block_restores_scopes {H : Host} {t : Program} {s₀ : State} (hstart : Started H t s₀)
    (hfits : t.Fits) (hclean : ∀ p, Visits H t s₀ p → p.Clean H t) {o e : ℕ}
    (hblock : Block t.marks o e) {s s' : State} {q : Point} (hs : Visits H t s₀ (.row o 0 s))
    (hstay : Stays H t o e (.row o 0 s) q) (hleave : Follows H t q (.row (e + 1) 0 s')) :
    s'.varTemp.keys = s.varTemp.keys := by
  have htarget : ∀ p, Visits H t s₀ p → p.Targeted t := fun p hp => (hclean p hp).targeted
  obtain ⟨hbal, hvisit, hin⟩ := balanced_of_stays hstart hfits hclean htarget hblock hs hstay
  have hsound := hvisit.sound hstart hfits htarget
  have hend := hbal.step hstart.built hfits hblock hin hsound (hclean q hvisit) hleave
    (.inr ⟨s', rfl⟩)
  -- behind the block no scope of the block is left
  obtain ⟨inner, outer, hvt, hkeys, hlen⟩ := hend.1.split
  rw [hblock.level_after, sub_self] at hlen
  have hnil : inner = [] := length_eq_zero_iff.mp (by exact_mod_cast hlen)
  rw [hvt, hnil, nil_append, hkeys]

/-! ## Runs on the plain host -/

instance : DecidablePred RegularRow := fun exp => decidable_of_iff _ (regularRow_iff exp).symm

instance (H : Host) (t : Program) (row : ℕ) (idx : ℤ) (e : Expression) (s : State) :
    Decidable (CleanStage H t row idx e s) :=
  decidable_of_iff _ (cleanStage_iff H t row idx e s).symm

instance (H : Host) (t : Program) : DecidablePred (Point.Clean H t)
  | .row i _ _ => inferInstanceAs (Decidable (∀ exp ∈ t.exps[i]?, RegularRow exp))
  | .stage i idx _ (e :: _) s => inferInstanceAs
      (Decidable ((∀ exp ∈ t.exps[i]?, RegularRow exp) ∧ CleanStage H t i idx e s))
  | .stage _ _ _ [] _ => .isTrue trivial

/-- A block whose first clause is run to the `else`. -/
theorem if_else_restores_scopes : ∃ t s₀ s s' q,
    plainRun ["if (\"a\")", "set .b (1)", "else", "end"] = some (t, s₀) ∧
    Visits plainHost t s₀ (.row 0 0 s) ∧ Stays plainHost t 0 3 (.row 0 0 s) q ∧
    Follows plainHost t q (.row 4 0 s') ∧ s'.varTemp.keys = s.varTemp.keys := by
  have hcheck : (plainRun ["if (\"a\")", "set .b (1)", "else", "end"]).any (fun p =>
      decide p.1.Fits && decide (Block p.1.marks 0 3) &&
      everyVisit p.1 p.2 20 (fun q => q.Clean plainHost p.1) &&
      (stretch plainHost p.1 0 3 (fun q => (q.next plainHost p.1 4).isSome) 20
        (startPoint p.2)).isSome) := by
    decide +kernel
  obtain ⟨⟨t, s₀⟩, hrun, hcheck⟩ := exists_of_any hcheck
  simp only [Bool.and_eq_true, decide_eq_true_eq] at hcheck
  obtain ⟨⟨⟨hfits, hblock⟩, hclean⟩, hcross⟩ := hcheck
  obtain ⟨q, hcross⟩ := Option.isSome_iff_exists.mp hcross
  have hstart := plainRun_startPoint hrun
  rw [hstart] at hcross
  have hvisit : Visits plainHost t s₀ (.row 0 0 s₀.enter) := ⟨s₀, .start, by rw [hstart]⟩
  obtain ⟨hstay, hnext⟩ := stretch_spec hcross
  obtain ⟨s', hnext⟩ := Option.isSome_iff_exists.mp hnext
  exact ⟨t, s₀, s₀.enter, s', q, hrun, hvisit, hstay, follows_of_next hnext,
    block_restores_scopes (plainRun_started hrun) hfits (fun p hp => of_everyVisit hclean hp) hblock
      hvisit hstay (follows_of_next hnext)⟩

/-- A false `if` without an `else` goes behind its `end`, and its scope stays open. -/
theorem if_false_leaks_scope : ∃ t s₀ s s' q,
    plainRun ["if (\"\")", "set .a (1)", "end", "set .b (1)"] = some (t, s₀) ∧
    Block t.marks 0 2 ∧ Visits plainHost t s₀ (.row 0 0 s) ∧
    Stays plainHost t 0 2 (.row 0 0 s) q ∧ Follows plainHost t q (.row 3 0 s') ∧
    s.varTemp.length = 1 ∧ s'.varTemp.length = 2 := by
  have hcheck : (plainRun ["if (\"\")", "set .a (1)", "end", "set .b (1)"]).any (fun p =>
      decide (Block p.1.marks 0 2) && decide (p.2.varTemp.length = 1) &&
      (stretch plainHost p.1 0 2 (fun q => (q.next plainHost p.1 3).any
        fun s => decide (s.varTemp.length = 2)) 20 (startPoint p.2)).isSome) := by
    decide +kernel
  obtain ⟨⟨t, s₀⟩, hrun, hcheck⟩ := exists_of_any hcheck
  simp only [Bool.and_eq_true, decide_eq_true_eq] at hcheck
  obtain ⟨⟨hblock, hlen⟩, hcross⟩ := hcheck
  obtain ⟨q, hcross⟩ := Option.isSome_iff_exists.mp hcross
  have hstart := plainRun_startPoint hrun
  rw [hstart] at hcross
  have hvisit : Visits plainHost t s₀ (.row 0 0 s₀.enter) := ⟨s₀, .start, by rw [hstart]⟩
  obtain ⟨hstay, hnext⟩ := stretch_spec hcross
  obtain ⟨s', hnext, hlen'⟩ := exists_of_any hnext
  exact ⟨t, s₀, s₀.enter, s', q, hrun, hblock, hvisit, hstay, follows_of_next hnext, hlen,
    of_decide_eq_true hlen'⟩

end Kairos

import Kairos.Deliverer.Queue
import Kairos.Library.Transitions

/-!
# The writer of a connection

`writer` of `server/deliverer/writer.go`. Any goroutine may enqueue or close, and a single one takes
the items out, a frame in each round of `waitSendMessage`. Rounds and closes exclude each other by
`w.mu`. A step is one call of the queue or of a write function, or one turn of the loop that fills a
frame.
-/

namespace Kairos.Deliverer.Writer

open List Option

/-- What has happened, as the writer's user sees it. -/
inductive Event where
  | accepted (i : Item)
  | wrote (frame : List Item)
  | flushed (frame : List Item)
  | closed (flushRemaining : Bool)
deriving DecidableEq

/-- Where a call of `waitSendMessage` stands. -/
inductive Round where
  | waiting
  | sleeping
  | woken
  | delaying
  | locking
  | removing
  | counting (msg : Item)
  | batching (messages : List Item) (messageCount : ℤ)
  | writing (messages : List Item)
  | returned
deriving DecidableEq

/-- Where the call of `close` stands that found the writer open. -/
inductive Closer where
  | closing (flushRemaining : Bool)
  | flushing (remaining : List Item)
  | ending (flushRemaining : Bool)
deriving DecidableEq

/-- A `writer`, its goroutine, the call of `close`, and what has happened. -/
structure State where
  messages : Queue
  closed : Bool
  closeCh : Bool
  round : Round
  closer : Option Closer
  log : List Event
  panicked : Bool
deriving DecidableEq

def newWriter (queueInitialCap : ℕ) : State :=
  { messages := Queue.new (if queueInitialCap = 0 then 2 else queueInitialCap)
    closed := false
    closeCh := false
    round := .waiting
    closer := none
    log := []
    panicked := false }

/-- A step of one of the goroutines. -/
inductive Act where
  | enqueue (item : Item)
  | wait
  | wake
  | timer
  | seeClosed
  | lock
  | remove
  | count
  | batch
  | write (ok : Bool)
  | close (flushRemaining : Bool)
  | closeMessages
  | flush (ok : Bool)
  | closeCh
deriving DecidableEq

def Act.succeeds : Act → Bool
  | .write ok => ok
  | .flush ok => ok
  | _ => true

def Round.signal : Round → Round
  | .sleeping => .woken
  | round => round

def Round.locks : Round → Bool
  | .removing => true
  | .counting _ => true
  | .batching _ _ => true
  | .writing _ => true
  | _ => false

namespace State

def unlocked (s : State) : Bool := !s.round.locks && s.closer.isNone

/-- A call of the queue, which may panic. -/
def after {α : Type} (s : State) (r : Res (α × Queue)) (go : State → α → State) : State :=
  match r with
  | .ok (a, messages) => go { s with messages := messages } a
  | _ => { s with panicked := true }

def enqueue (s : State) (item : Item) : State :=
  s.after (s.messages.add item) fun s ok =>
    if ok then { s with round := s.round.signal, log := s.log ++ [.accepted item] } else s

def wait (writeDelay : Bool) (s : State) : State :=
  { s with
    round :=
      if s.messages.closed then .returned
      else if s.messages.cnt ≠ 0 then (if writeDelay then .delaying else .locking)
      else .sleeping }

def remove (s : State) : State :=
  s.after s.messages.remove fun s r =>
    if r.2 then { s with round := .counting r.1 }
    else { s with round := if s.messages.closed then .returned else .waiting }

def count (maxMessagesInFrame : ℤ) (s : State) (msg : Item) : State :=
  if (maxMessagesInFrame = -1 ∨ maxMessagesInFrame > 1) ∧ s.messages.len > 0 then
    { s with round := .batching [msg] s.messages.len }
  else { s with round := .writing [msg] }

def batch (maxMessagesInFrame : ℤ) (s : State) (messages : List Item) (messageCount : ℤ) : State :=
  if messageCount > 0 then
    if maxMessagesInFrame > -1 ∧ (messages.length : ℤ) ≥ maxMessagesInFrame then
      { s with round := .writing messages }
    else
      s.after s.messages.remove fun s r =>
        if r.2 then { s with round := .batching (messages ++ [r.1]) (messageCount - 1) }
        else if s.messages.closed then { s with round := .returned }
        else { s with round := .writing messages }
  else { s with round := .writing messages }

def write (s : State) (messages : List Item) (ok : Bool) : State :=
  if ok then { s with round := .waiting, log := s.log ++ [.wrote messages] }
  else { s with round := .returned }

def close (s : State) (flushRemaining : Bool) : State :=
  if s.closed then s else { s with closed := true, closer := some (.closing flushRemaining) }

def closeMessages (s : State) (flushRemaining : Bool) : State :=
  if flushRemaining then
    s.after s.messages.closeRemaining fun s remaining =>
      { s with round := s.round.signal, closer := some (.flushing remaining) }
  else
    { s with
      messages := s.messages.close
      round := s.round.signal
      closer := some (.ending false) }

def flush (s : State) (remaining : List Item) (ok : Bool) : State :=
  { s with
    closer := some (.ending true)
    log := if remaining.length > 0 ∧ ok then s.log ++ [.flushed remaining] else s.log }

def step (maxMessagesInFrame : ℤ) (writeDelay : Bool) (s : State) : Act → Option State
  | .enqueue item => some (s.enqueue item)
  | .wait => if s.round = .waiting then some (s.wait writeDelay) else none
  | .wake =>
    if s.round = .woken then some { s with round := if writeDelay then .delaying else .locking }
    else none
  | .timer => if s.round = .delaying then some { s with round := .locking } else none
  | .seeClosed =>
    if s.round = .delaying ∧ s.closeCh then some { s with round := .returned } else none
  | .lock =>
    if s.round = .locking ∧ s.unlocked then some { s with round := .removing } else none
  | .remove => if s.round = .removing then some s.remove else none
  | .count =>
    match s.round with
    | .counting msg => some (s.count maxMessagesInFrame msg)
    | _ => none
  | .batch =>
    match s.round with
    | .batching messages messageCount => some (s.batch maxMessagesInFrame messages messageCount)
    | _ => none
  | .write ok =>
    match s.round with
    | .writing messages => some (s.write messages ok)
    | _ => none
  | .close flushRemaining => if s.unlocked then some (s.close flushRemaining) else none
  | .closeMessages =>
    match s.closer with
    | some (.closing flushRemaining) => some (s.closeMessages flushRemaining)
    | _ => none
  | .flush ok =>
    match s.closer with
    | some (.flushing remaining) => some (s.flush remaining ok)
    | _ => none
  | .closeCh =>
    match s.closer with
    | some (.ending flushRemaining) =>
      some { s with
        closeCh := true
        closer := none
        log := s.log ++ [.closed flushRemaining] }
    | _ => none

end State

def next (maxMessagesInFrame : ℤ) (writeDelay : Bool) (s : State) (a : Act) : Option State :=
  if s.panicked then none else s.step maxMessagesInFrame writeDelay a

/-! ## What is accepted and what is written -/

def Event.acceptedItems : Event → List Item
  | .accepted i => [i]
  | _ => []

def Event.writtenItems : Event → List Item
  | .wrote frame => frame
  | .flushed frame => frame
  | _ => []

def accepted (log : List Event) : List Item := log.flatMap Event.acceptedItems

def written (log : List Event) : List Item := log.flatMap Event.writtenItems

@[simp] theorem accepted_snoc (log : List Event) (e : Event) :
    accepted (log ++ [e]) = accepted log ++ e.acceptedItems := by
  simp [accepted]

@[simp] theorem written_snoc (log : List Event) (e : Event) :
    written (log ++ [e]) = written log ++ e.writtenItems := by
  simp [written]

/-- The items taken from the queue and not written yet. -/
def Round.inHand : Round → List Item
  | .counting msg => [msg]
  | .batching messages _ => messages
  | .writing messages => messages
  | _ => []

@[simp] theorem inHand_signal (round : Round) : round.signal.inHand = round.inHand := by
  cases round <;> rfl

@[simp] theorem locks_signal (round : Round) : round.signal.locks = round.locks := by
  cases round <;> rfl

theorem inHand_of_not_locks {round : Round} (h : round.locks = false) : round.inHand = [] := by
  cases round <;> first | rfl | cases h

/-! ## The queue's operations, once more

What `exec_eq_ok` says, for each operation that the writer uses.
-/

section Queue

variable {q : Queue} {f : Fifo}

theorem add_eq_ok (h : Represents q f) (i : Item) : ∃ q', q.add i = .ok (!f.closed, q') ∧
      Represents q' (if f.closed then f else { f with items := f.items ++ [i] }) := by
  cases hf : f.closed with
  | true =>
    refine ⟨q, ?_, by simpa using h⟩
    rw [Queue.add, if_pos (h.closed_eq.trans hf)]
    rfl
  | false =>
    obtain ⟨q', hadd, hq'⟩ := add_open h (h.closed_eq.trans hf) i
    exact ⟨q', hadd, by simpa [hf] using hq'⟩

theorem remove_eq_ok (h : Represents q f) :
    (f.items = [] ∧ q.remove = .ok ((Item.zero, false), q)) ∨
      ∃ i items q', f.items = i :: items ∧ q.remove = .ok ((i, true), q') ∧
        Represents q' { f with items := items } := by
  obtain ⟨items, b⟩ := f
  cases items with
  | nil =>
    left
    have hcnt : q.cnt = 0 := h.cnt_eq
    refine ⟨rfl, ?_⟩
    rw [Queue.remove, if_pos hcnt]
    rfl
  | cons i items =>
    right
    obtain ⟨q', hremove, hq'⟩ := remove_cons h
    exact ⟨i, items, q', rfl, hremove, hq'⟩

theorem open_of_cons (h : Represents q f) {i : Item} {items : List Item}
    (hitems : f.items = i :: items) : f.closed = false := by
  cases hf : f.closed with
  | true => simp [h.nil (h.closed_eq.trans hf)] at hitems
  | false => rfl

end Queue

/-- Which items are where, by `closed`, the `close` that holds `w.mu`, the items in hand, the events
and the queue. -/
inductive Phase (closed : Bool) (closer : Option Closer) (inHand : List Item) (log : List Event)
    (f : Fifo) : Prop where
  | running (hf : f.closed = false)
      (hcloser : closer = none ∧ closed = false ∨ ∃ b, closer = some (.closing b))
      (hlog : ∀ b, Event.closed b ∉ log)
      (heq : accepted log = written log ++ inHand ++ f.items)
  | flushing (hf : f.closed) (remaining : List Item)
      (hcloser : closer = some (.flushing remaining)) (hhand : inHand = [])
      (hlog : ∀ b, Event.closed b ∉ log)
      (heq : accepted log = written log ++ remaining)
  | ending (hf : f.closed) (flushRemaining : Bool)
      (hcloser : closer = some (.ending flushRemaining)) (hhand : inHand = [])
      (hlog : ∀ b, Event.closed b ∉ log)
      (hle : written log <+: accepted log)
      (heq : flushRemaining → written log = accepted log)
  | shut (hf : f.closed) (hclosed : closed) (hcloser : closer = none)
      (hhand : inHand = [])
      (hle : written log <+: accepted log)
      (heq : Event.closed true ∈ log → written log = accepted log)

def Round.Fits (maxMessagesInFrame : ℤ) : Round → Prop
  | .batching messages _ =>
    messages ≠ [] ∧ (maxMessagesInFrame ≠ -1 → (messages.length : ℤ) ≤ maxMessagesInFrame)
  | .writing messages =>
    messages ≠ [] ∧ (maxMessagesInFrame ≠ -1 → (messages.length : ℤ) ≤ maxMessagesInFrame)
  | _ => True

@[simp] theorem fits_signal {maxMessagesInFrame : ℤ} {round : Round} :
    round.signal.Fits maxMessagesInFrame ↔ round.Fits maxMessagesInFrame := by
  cases round <;> rfl

/-- The queue stands for a list, and the log for what was added to it and taken from it. -/
structure Inv (maxMessagesInFrame : ℤ) (s : State) (f : Fifo) : Prop where
  panicked : s.panicked = false
  represents : Represents s.messages f
  phase : Phase s.closed s.closer s.round.inHand s.log f
  closing : s.closer ≠ none → s.closed
  excludes : s.closer ≠ none → s.round.locks = false
  fits : s.round.Fits maxMessagesInFrame
  frames : ∀ frame, Event.wrote frame ∈ s.log →
    maxMessagesInFrame ≠ -1 → (frame.length : ℤ) ≤ maxMessagesInFrame

theorem Inv.start (max : ℤ) (cap : ℕ) : Inv max (newWriter cap) ⟨[], false⟩ where
  panicked := rfl
  represents := new_represents (by split <;> omega)
  phase := .running rfl (.inl ⟨rfl, rfl⟩) (by simp [newWriter]) rfl
  closing := fun h => absurd rfl h
  excludes := fun h => absurd rfl h
  fits := trivial
  frames := by simp [newWriter]

section Phases

variable {closed : Bool} {closer : Option Closer} {inHand : List Item} {log : List Event} {f : Fifo}

theorem Phase.of_open (h : Phase closed closer inHand log f) (hf : f.closed = false) :
    (closer = none ∧ closed = false ∨ ∃ b, closer = some (.closing b)) ∧
      (∀ b, Event.closed b ∉ log) ∧ accepted log = written log ++ inHand ++ f.items := by
  cases h with
  | running _ hcloser hlog heq => exact ⟨hcloser, hlog, heq⟩
  | flushing hc | ending hc | shut hc => exact absurd (hf.symm.trans hc) Bool.false_ne_true

theorem Phase.open_of_inHand (h : Phase closed closer inHand log f) (hhand : inHand ≠ []) :
    f.closed = false := by
  cases h with
  | running hf => exact hf
  | flushing _ _ _ hnil | ending _ _ _ hnil | shut _ _ _ hnil => exact absurd hnil hhand

theorem Phase.open_of_closing {b : Bool} (h : Phase closed (some (.closing b)) inHand log f) :
    f.closed = false := by
  cases h with
  | running hf => exact hf
  | flushing _ _ hc | ending _ _ hc | shut _ _ hc => cases hc

theorem Phase.accept (h : Phase closed closer inHand log f) (hf : f.closed = false) (i : Item) :
    Phase closed closer inHand (log ++ [.accepted i]) { f with items := f.items ++ [i] } := by
  obtain ⟨hcloser, hlog, heq⟩ := h.of_open hf
  refine .running hf hcloser (by simpa using hlog) ?_
  simp [heq, Event.acceptedItems, Event.writtenItems]

theorem Phase.take (h : Phase closed closer inHand log f) (hf : f.closed = false) {i : Item}
    {items : List Item} (hitems : f.items = i :: items) :
    Phase closed closer (inHand ++ [i]) log { f with items := items } := by
  obtain ⟨hcloser, hlog, heq⟩ := h.of_open hf
  refine .running hf hcloser hlog ?_
  simp [heq, hitems]

theorem Phase.wrote (h : Phase closed closer inHand log f) (hhand : inHand ≠ []) :
    Phase closed closer [] (log ++ [.wrote inHand]) f := by
  have hf := h.open_of_inHand hhand
  obtain ⟨hcloser, hlog, heq⟩ := h.of_open hf
  refine .running hf hcloser (by simpa using hlog) ?_
  simp [heq, Event.acceptedItems, Event.writtenItems]

theorem Phase.closeRemaining {b : Bool} (h : Phase closed (some (.closing b)) [] log f) :
    Phase closed (some (.flushing f.items)) [] log ⟨[], true⟩ := by
  obtain ⟨-, hlog, heq⟩ := h.of_open h.open_of_closing
  exact .flushing rfl f.items rfl rfl hlog (by simpa using heq)

theorem Phase.drop {b : Bool} (h : Phase closed (some (.closing b)) [] log f) :
    Phase closed (some (.ending false)) [] log ⟨[], true⟩ := by
  obtain ⟨-, hlog, heq⟩ := h.of_open h.open_of_closing
  refine .ending rfl false rfl rfl hlog ?_ (by simp)
  rw [heq, append_nil]
  exact prefix_append _ _

theorem Phase.flush {remaining : List Item}
    (h : Phase closed (some (.flushing remaining)) inHand log f) :
    Phase closed (some (.ending true)) inHand
      (if remaining.length > 0 then log ++ [.flushed remaining] else log) f := by
  cases h with
  | running _ hc => simp at hc
  | ending _ _ hc | shut _ _ hc => cases hc
  | flushing hf _ hc hhand hlog heq =>
    cases hc
    split_ifs with hlen
    · have hall :
          written (log ++ [.flushed remaining]) = accepted (log ++ [.flushed remaining]) := by
        simp [heq, Event.acceptedItems, Event.writtenItems]
      exact .ending hf true rfl hhand (by simpa using hlog) (hall ▸ prefix_rfl) fun _ => hall
    · have hnil : remaining = [] := eq_nil_of_length_eq_zero (by omega)
      have hall : written log = accepted log := by simp [heq, hnil]
      exact .ending hf true rfl hhand hlog (hall ▸ prefix_rfl) fun _ => hall

theorem Phase.finish {b : Bool} (h : Phase true (some (.ending b)) inHand log f) :
    Phase true none inHand (log ++ [.closed b]) f := by
  cases h with
  | running _ hc => simp at hc
  | flushing _ _ hc | shut _ _ hc => cases hc
  | ending hf _ hc hhand hlog hle heq =>
    cases hc
    refine .shut hf rfl rfl hhand ?_ ?_
    · simpa [Event.acceptedItems, Event.writtenItems] using hle
    · intro hmem
      have hb : b := by simpa [hlog, eq_comm] using hmem
      simpa [Event.acceptedItems, Event.writtenItems] using heq hb

end Phases

section Steps

variable {max : ℤ} {s s' : State} {f : Fifo}

variable (h : Inv max s f)
include h

theorem Inv.round {round : Round} (hhand : round.inHand = s.round.inHand)
    (hlocks : s.closer ≠ none → round.locks = false) (hfits : round.Fits max) :
    Inv max { s with round := round } f :=
  { h with phase := hhand ▸ h.phase, excludes := hlocks, fits := hfits }

theorem Inv.outside (hs : s.round.inHand = []) {round : Round}
    (hlocks : round.locks = false) (hfits : round.Fits max) : Inv max { s with round := round } f :=
  h.round (by rw [inHand_of_not_locks hlocks, hs]) (fun _ => hlocks) hfits

theorem Inv.closer_eq_none (hs : s.round.locks) : s.closer = none := by
  by_contra hne
  exact absurd (hs.symm.trans (h.excludes hne)) (by simp)

theorem Inv.enqueue (item : Item) : ∃ f', Inv max (s.enqueue item) f' := by
  obtain ⟨q, hadd, hq⟩ := add_eq_ok h.represents item
  unfold State.enqueue
  rw [hadd]
  cases hf : f.closed with
  | true =>
    rw [if_pos hf] at hq
    exact ⟨f, { h with represents := hq }⟩
  | false =>
    rw [hf, if_neg Bool.false_ne_true] at hq
    refine ⟨⟨f.items ++ [item], false⟩, ?_⟩
    exact
      { panicked := h.panicked
        represents := hq
        phase := by simpa [State.after, hf] using h.phase.accept hf item
        closing := h.closing
        excludes := by simpa [State.after] using h.excludes
        fits := fits_signal.mpr h.fits
        frames := by simpa [State.after] using h.frames }

theorem Inv.wait (hs : s.round = .waiting) (writeDelay : Bool) : Inv max (s.wait writeDelay) f := by
  refine h.outside (by rw [hs]; rfl) ?_ ?_ <;> split_ifs <;> first | rfl | trivial

theorem Inv.take (hs : s.round.locks) {i : Item} {items : List Item}
    (hitems : f.items = i :: items) {q : Queue} (hq : Represents q { f with items := items })
    {round : Round} (hhand : round.inHand = s.round.inHand ++ [i]) (hfits : round.Fits max) :
    Inv max { s with messages := q, round := round } { f with items := items } where
  panicked := h.panicked
  represents := hq
  phase := hhand ▸ h.phase.take (open_of_cons h.represents hitems) hitems
  closing := h.closing
  excludes := fun hne => absurd (h.closer_eq_none hs) hne
  fits := hfits
  frames := h.frames

theorem Inv.remove (hs : s.round = .removing) : ∃ f', Inv max s.remove f' := by
  have hhand : s.round.inHand = [] := by rw [hs]; rfl
  unfold State.remove
  obtain ⟨-, hremove⟩ | ⟨i, items, q, hitems, hremove, hq⟩ := remove_eq_ok h.represents
  · rw [hremove]
    refine ⟨f, h.outside hhand ?_ ?_⟩ <;> split_ifs <;> first | rfl | trivial
  · rw [hremove]
    exact ⟨_, h.take (by rw [hs]; rfl) hitems hq (by rw [hhand]; rfl) trivial⟩

theorem Inv.count (hmax : max = -1 ∨ 1 ≤ max) {msg : Item}
    (hs : s.round = .counting msg) : Inv max (s.count max msg) f := by
  have hnone := h.closer_eq_none (by rw [hs]; rfl)
  have hone : max ≠ -1 → (([msg] : List Item).length : ℤ) ≤ max := by
    intro hne
    have := hmax.resolve_left hne
    simpa using this
  unfold State.count
  split_ifs
  · exact h.round (by rw [hs]; rfl) (fun hne => absurd hnone hne) ⟨by simp, hone⟩
  · exact h.round (by rw [hs]; rfl) (fun hne => absurd hnone hne) ⟨by simp, hone⟩

theorem Inv.batch {messages : List Item} {messageCount : ℤ}
    (hs : s.round = .batching messages messageCount) :
    ∃ f', Inv max (s.batch max messages messageCount) f' := by
  have hlocks : s.round.locks := by rw [hs]; rfl
  have hhand : s.round.inHand = messages := by rw [hs]; rfl
  have hfits : messages ≠ [] ∧ (max ≠ -1 → (messages.length : ℤ) ≤ max) := by
    simpa [hs, Round.Fits] using h.fits
  have hwrite : Inv max { s with round := .writing messages } f :=
    h.round hhand.symm (fun hne => absurd (h.closer_eq_none hlocks) hne) hfits
  unfold State.batch
  split_ifs with hcount hfull
  · exact ⟨f, hwrite⟩
  · obtain ⟨-, hremove⟩ | ⟨i, items, q, hitems, hremove, hq⟩ := remove_eq_ok h.represents
    · -- a queue that is closed would have left nothing in the goroutine's hands
      have hopen : s.messages.closed = false :=
        h.represents.closed_eq.trans (h.phase.open_of_inHand (hhand ▸ hfits.1))
      rw [hremove]
      refine ⟨f, ?_⟩
      simpa [State.after, hopen] using hwrite
    · rw [hremove]
      refine ⟨_, h.take hlocks hitems hq (by rw [hhand]; rfl) ⟨by simp, fun hne => ?_⟩⟩
      have hle := hfits.2 hne
      simp only [length_append, length_singleton]
      omega
  · exact ⟨f, hwrite⟩

theorem Inv.write {messages : List Item} (hs : s.round = .writing messages) :
    Inv max (s.write messages true) f := by
  have hhand : s.round.inHand = messages := by rw [hs]; rfl
  have hfits : messages ≠ [] ∧ (max ≠ -1 → (messages.length : ℤ) ≤ max) := by
    simpa [hs, Round.Fits] using h.fits
  exact
    { panicked := h.panicked
      represents := h.represents
      phase := hhand ▸ h.phase.wrote (hhand ▸ hfits.1)
      closing := h.closing
      excludes := fun _ => rfl
      fits := trivial
      frames := by
        intro frame hmem
        rcases mem_append.mp hmem with hold | hnew
        · exact h.frames frame hold
        · cases mem_singleton.mp hnew
          exact hfits.2 }

theorem Inv.close (hs : s.unlocked) (flushRemaining : Bool) :
    Inv max (s.close flushRemaining) f := by
  have hlocks : s.round.locks = false := by
    simp only [State.unlocked, Bool.and_eq_true, Bool.not_eq_true'] at hs
    exact hs.1
  unfold State.close
  split_ifs with hclosed
  · exact h
  · have hphase := h.phase
    refine { h with phase := ?_, closing := fun _ => rfl, excludes := fun _ => hlocks }
    cases hphase with
    | running hf _ hlog heq => exact .running hf (.inr ⟨_, rfl⟩) hlog heq
    | flushing _ _ hc | ending _ _ hc => exact absurd (h.closing (by simp [hc])) hclosed
    | shut _ hc => exact absurd hc hclosed

theorem Inv.closeMessages {flushRemaining : Bool} (hs : s.closer = some (.closing flushRemaining)) :
    ∃ f', Inv max (s.closeMessages flushRemaining) f' := by
  have hlocks : s.round.locks = false := h.excludes (by simp [hs])
  have hhand : s.round.inHand = [] := inHand_of_not_locks hlocks
  have hclosed : s.closed := h.closing (by simp [hs])
  have hphase := h.phase
  rw [hs, hhand] at hphase
  have hopen : s.messages.closed = false := h.represents.closed_eq.trans hphase.open_of_closing
  refine ⟨⟨[], true⟩, ?_⟩
  unfold State.closeMessages
  cases flushRemaining with
  | true =>
    obtain ⟨q, hclose, hq⟩ := closeRemaining_open h.represents hopen
    simp only [if_true, hclose, State.after]
    exact
      { panicked := h.panicked
        represents := hq
        phase := by simpa [hhand] using hphase.closeRemaining
        closing := fun _ => hclosed
        excludes := fun _ => (locks_signal _).trans hlocks
        fits := fits_signal.mpr h.fits
        frames := h.frames }
  | false =>
    exact
      { panicked := h.panicked
        represents := .shut _
        phase := by simpa [hhand] using hphase.drop
        closing := fun _ => hclosed
        excludes := fun _ => (locks_signal _).trans hlocks
        fits := fits_signal.mpr h.fits
        frames := h.frames }

theorem Inv.flush {remaining : List Item}
    (hs : s.closer = some (.flushing remaining)) : Inv max (s.flush remaining true) f := by
  have hphase := h.phase
  rw [hs] at hphase
  exact
    { panicked := h.panicked
      represents := h.represents
      phase := by simpa [State.flush] using hphase.flush
      closing := fun _ => h.closing (by simp [hs])
      excludes := fun _ => h.excludes (by simp [hs])
      fits := h.fits
      frames := by
        intro frame hmem
        simp only [State.flush] at hmem
        split_ifs at hmem
        · exact h.frames frame (by simpa using hmem)
        · exact h.frames frame hmem }

theorem Inv.finish {flushRemaining : Bool} (hs : s.closer = some (.ending flushRemaining)) :
    Inv max { s with
      closeCh := true
      closer := none
      log := s.log ++ [.closed flushRemaining] } f := by
  have hclosed : s.closed := h.closing (by simp [hs])
  have hphase := h.phase
  rw [hs, hclosed] at hphase
  exact
    { panicked := h.panicked
      represents := h.represents
      phase := by simpa [hclosed] using hphase.finish
      closing := fun hne => absurd rfl hne
      excludes := fun hne => absurd rfl hne
      fits := h.fits
      frames := fun frame hmem => h.frames frame (by simpa using hmem) }

theorem Inv.step (hmax : max = -1 ∨ 1 ≤ max) {writeDelay : Bool} {a : Act}
    (ha : a.succeeds) (hstep : s.step max writeDelay a = some s') : ∃ f', Inv max s' f' := by
  cases a with
  | enqueue item =>
    cases hstep
    exact h.enqueue item
  | wait =>
    simp only [State.step, ite_none_right_eq_some, some.injEq] at hstep
    obtain ⟨hs, rfl⟩ := hstep
    exact ⟨f, h.wait hs writeDelay⟩
  | wake =>
    simp only [State.step, ite_none_right_eq_some, some.injEq] at hstep
    obtain ⟨hs, rfl⟩ := hstep
    refine ⟨f, h.outside (by rw [hs]; rfl) ?_ ?_⟩ <;> split_ifs <;> first | rfl | trivial
  | timer =>
    simp only [State.step, ite_none_right_eq_some, some.injEq] at hstep
    obtain ⟨hs, rfl⟩ := hstep
    exact ⟨f, h.outside (by rw [hs]; rfl) rfl trivial⟩
  | seeClosed =>
    simp only [State.step, ite_none_right_eq_some, some.injEq] at hstep
    obtain ⟨⟨hs, -⟩, rfl⟩ := hstep
    exact ⟨f, h.outside (by rw [hs]; rfl) rfl trivial⟩
  | lock =>
    simp only [State.step, ite_none_right_eq_some, some.injEq] at hstep
    obtain ⟨⟨hs, hfree⟩, rfl⟩ := hstep
    -- the mutex is free, so no call of `close` is under way
    have hnone : s.closer = none := by
      simp only [State.unlocked, Bool.and_eq_true, isNone_iff_eq_none] at hfree
      exact hfree.2
    exact ⟨f, h.round (by rw [hs]; rfl) (fun hne => absurd hnone hne) trivial⟩
  | remove =>
    simp only [State.step, ite_none_right_eq_some, some.injEq] at hstep
    obtain ⟨hs, rfl⟩ := hstep
    exact h.remove hs
  | count =>
    simp only [State.step] at hstep
    split at hstep
    · next msg hs => cases hstep; exact ⟨f, h.count hmax hs⟩
    · cases hstep
  | batch =>
    simp only [State.step] at hstep
    split at hstep
    · next messages messageCount hs => cases hstep; exact h.batch hs
    · cases hstep
  | write ok =>
    cases (ha : ok)
    simp only [State.step] at hstep
    split at hstep
    · next messages hs => cases hstep; exact ⟨f, h.write hs⟩
    · cases hstep
  | close flushRemaining =>
    simp only [State.step, ite_none_right_eq_some, some.injEq] at hstep
    obtain ⟨hs, rfl⟩ := hstep
    exact ⟨f, h.close hs flushRemaining⟩
  | closeMessages =>
    simp only [State.step] at hstep
    split at hstep
    · next flushRemaining hs => cases hstep; exact h.closeMessages hs
    · cases hstep
  | flush ok =>
    cases (ha : ok)
    simp only [State.step] at hstep
    split at hstep
    · next remaining hs => cases hstep; exact ⟨f, h.flush hs⟩
    · cases hstep
  | closeCh =>
    simp only [State.step] at hstep
    split at hstep
    · next flushRemaining hs => cases hstep; exact ⟨f, h.finish hs⟩
    · cases hstep

end Steps

theorem Phase.written_prefix {closed : Bool} {closer : Option Closer} {inHand : List Item}
    {log : List Event} {f : Fifo} (h : Phase closed closer inHand log f) :
    written log <+: accepted log := by
  cases h with
  | running _ _ _ heq =>
    rw [heq, append_assoc]
    exact prefix_append _ _
  | flushing _ _ _ _ _ heq =>
    rw [heq]
    exact prefix_append _ _
  | ending _ _ _ _ _ hle | shut _ _ _ _ hle => exact hle

theorem Phase.written_eq {closed : Bool} {closer : Option Closer} {inHand : List Item}
    {log : List Event} {f : Fifo} (h : Phase closed closer inHand log f)
    (hlog : Event.closed true ∈ log) : written log = accepted log := by
  cases h with
  | running _ _ hno | flushing _ _ _ _ hno | ending _ _ _ _ hno => exact absurd hlog (hno true)
  | shut _ _ _ _ _ heq => exact heq hlog

/-- Whatever the interleaving: if the write functions succeed, the items written are the first ones
accepted, all of them after a close with a flush, and no frame is too long. -/
theorem written_prefix_accepted (queueInitialCap : ℕ) (maxMessagesInFrame : ℤ)
    (hmax : maxMessagesInFrame = -1 ∨ 1 ≤ maxMessagesInFrame) (writeDelay : Bool) (acts : List Act)
    (hacts : ∀ a ∈ acts, a.succeeds) (t : State)
    (hrun : Transitions.run (next maxMessagesInFrame writeDelay) (newWriter queueInitialCap) acts =
      some t) : t.panicked = false ∧ written t.log <+: accepted t.log ∧
    (∀ i, (written t.log).count i ≤ (accepted t.log).count i) ∧
    (Event.closed true ∈ t.log → written t.log = accepted t.log) ∧
    ∀ frame, Event.wrote frame ∈ t.log →
      maxMessagesInFrame ≠ -1 → (frame.length : ℤ) ≤ maxMessagesInFrame := by
  obtain ⟨f, h⟩ : ∃ f, Inv maxMessagesInFrame t f := by
    refine Transitions.run_invariant (I := fun s => ∃ f, Inv maxMessagesInFrame s f)
      (fun s a s' hs ha hnext => ?_) ⟨_, Inv.start maxMessagesInFrame queueInitialCap⟩
      (Transitions.meets_of_forall hacts _) hrun
    obtain ⟨f, hs⟩ := hs
    rw [next, hs.panicked, if_neg Bool.false_ne_true] at hnext
    exact hs.step hmax ha hnext
  have hle := h.phase.written_prefix
  exact ⟨h.panicked, hle, fun i => hle.sublist.count_le i, h.phase.written_eq, h.frames⟩

def threeItems : List Act :=
  [.wait, .enqueue ⟨[1], [], 1⟩, .wake, .enqueue ⟨[2], [], 1⟩, .lock, .remove,
    .enqueue ⟨[3], [], 1⟩, .count, .batch, .batch, .write true, .close true, .closeMessages,
    .flush true, .closeCh]

theorem threeItems_written : ∃ t, Transitions.run (next 2 false) (newWriter 0) threeItems = some t ∧
      Event.wrote [⟨[1], [], 1⟩, ⟨[2], [], 1⟩] ∈ t.log ∧
      written t.log = [⟨[1], [], 1⟩, ⟨[2], [], 1⟩, ⟨[3], [], 1⟩] ∧
      written t.log = accepted t.log := by
  refine ⟨_, rfl, by decide, by decide, ?_⟩
  exact (written_prefix_accepted 0 2 (by decide) false threeItems (by decide) _ rfl).2.2.2.1
    (by decide)

end Kairos.Deliverer.Writer

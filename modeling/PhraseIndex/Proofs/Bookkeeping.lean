import Mathlib.Data.List.DropRight
import PhraseIndex.Proofs.Positions

/-!
# The books of a batch

A batch numbers what it accepts: an update is refused once its stream has been moved to its number or past it, by an
addition or a deletion alike, and `clear` empties the batch but keeps the positions. A run of calls is listed with its
answers (`UpdateBatch.applyAll`), and what the batch holds is read off that list (`UpdateBatch.Books`, kept by every
call in `UpdateBatch.Books.step`): the entries and the marked domains off its part since the last `clear`, the positions
off all of it (`UpdateBatch.books_after`).
-/

namespace PhraseIndex

namespace UpdateBatch

/-- The update number that a call carries, if it does. -/
def Item.id? : Item → Option UpdateId
  | .add id _ | .delete id _ => some id
  | .push _ | .deleteDomain _ | .clear => none

/-- A call with its answer. -/
structure Reply where
  call : Item
  answer : Option Bool

namespace Reply

/-- The update number of a call that was accepted. -/
def accepted? (r : Reply) : Option UpdateId := if r.answer = some true then r.call.id? else none

/-- The sentence pair that was queued. -/
def entry? : Reply → Option SentencePair
  | ⟨.add _ pair, some true⟩ | ⟨.push pair, _⟩ => some pair
  | _ => none

/-- The domain that was marked. -/
def deletion? : Reply → Option Domain
  | ⟨.delete _ domain, some true⟩ | ⟨.deleteDomain domain, _⟩ => some domain
  | _ => none

end Reply

/-- Makes the calls one after the other, and lists them with their answers. -/
def applyAll (b : UpdateBatch) : List Item → List Reply × UpdateBatch
  | [] => ([], b)
  | call :: calls =>
    let (answer, b) := b.apply call
    let (replies, b) := b.applyAll calls
    (⟨call, answer⟩ :: replies, b)

/-- The numbers accepted on a stream, in the order of the calls. -/
def numbers (stream : StreamId) (replies : List Reply) : List SeqNo :=
  ((replies.filterMap Reply.accepted?).filter fun id => id.stream = stream).map (·.seq)

/-- The number a stream starts from and those accepted on it. -/
def known (start : Streams) (replies : List Reply) (stream : StreamId) : List SeqNo :=
  (start.get? stream).toList ++ numbers stream replies

/-- What was answered since the batch was last emptied. -/
def sinceClear (replies : List Reply) : List Reply := replies.rtakeWhile fun r => r.call ≠ .clear

/-! ## One call -/

section Call

variable {b : UpdateBatch} {call : Item} {id : UpdateId} {domain : Domain}

/-- A call that carries a number is refused when the positions cover it. -/
theorem answer_of_id? (h : call.id? = some id) : (b.apply call).1 = some (!b.streams.covers id) := by
  cases call <;> cases h <;> by_cases hc : b.streams.covers id = true <;> simp [apply, add, delete, accept, hc]

/-- Other calls have no answer. -/
theorem answer_of_id?_none (h : call.id? = none) : (b.apply call).1 = none := by
  cases call <;> cases h <;> rfl

/-- A refused call changes nothing. -/
theorem apply_of_refused (h : (b.apply call).1 = some false) : (b.apply call).2 = b := by
  cases call with
  | add id | delete id =>
    rw [answer_of_id? rfl, Option.some.injEq, Bool.not_eq_false'] at h
    simp [apply, add, delete, accept_of_covers h]
  | push | deleteDomain | clear => cases h

/-- The positions cover no update that is accepted. -/
theorem covers_of_accepted (h : Reply.accepted? ⟨call, (b.apply call).1⟩ = some id) : b.streams.covers id = false := by
  rw [Reply.accepted?] at h
  split at h
  · next hanswer =>
    rwa [answer_of_id? h, Option.some.injEq, Bool.not_eq_true'] at hanswer
  · cases h

/-- Only an update that is accepted moves the positions. -/
theorem streams_apply (b : UpdateBatch) (call : Item) : (b.apply call).2.streams =
    (Reply.accepted? ⟨call, (b.apply call).1⟩).elim b.streams b.streams.advance := by
  cases call with
  | add id _ | delete id _ =>
    by_cases hc : b.streams.covers id = true <;>
      simp [apply, add, delete, accept, push, deleteDomain, Reply.accepted?, Item.id?, hc]
  | push | deleteDomain | clear => rfl

theorem entries_apply (b : UpdateBatch) (call : Item) : (b.apply call).2.entries =
    if call = .clear then [] else b.entries ++ (Reply.entry? ⟨call, (b.apply call).1⟩).toList := by
  cases call with
  | add id _ | delete id _ =>
    by_cases hc : b.streams.covers id = true <;> simp [apply, add, delete, accept, push, deleteDomain, Reply.entry?, hc]
  | push | deleteDomain | clear => simp [apply, push, deleteDomain, clear, Reply.entry?]

theorem mem_deletions_apply : domain ∈ (b.apply call).2.deletions ↔
    call ≠ .clear ∧ (domain ∈ b.deletions ∨ Reply.deletion? ⟨call, (b.apply call).1⟩ = some domain) := by
  cases call with
  | add id _ | delete id _ =>
    by_cases hc : b.streams.covers id = true <;>
      simp [apply, add, delete, accept, push, deleteDomain, Reply.deletion?, hc, or_comm]
  | push | deleteDomain | clear => simp [apply, push, deleteDomain, clear, Reply.deletion?, or_comm]

end Call

/-! ## What the answers tell -/

section Lists

variable {start : Streams} {replies : List Reply} {stream : StreamId}

theorem known_append (r : Reply) : known start (replies ++ [r]) stream =
    known start replies stream ++ (r.accepted?.filter fun id => id.stream = stream).toList.map (·.seq) := by
  have hone : [r].filterMap Reply.accepted? = r.accepted?.toList := by
    cases h : r.accepted? <;> simp [h]
  rw [known, known, numbers, numbers, List.filterMap_append, hone, List.filter_append, List.map_append,
    List.append_assoc, Option.toList_filter]

theorem sinceClear_append (r : Reply) :
    sinceClear (replies ++ [r]) = if r.call = .clear then [] else sinceClear replies ++ [r] := by
  rw [sinceClear, List.rtakeWhile_concat]
  simp [sinceClear]

end Lists

/-- What a batch holds, by the answers that its calls have had. -/
structure Books (start : Streams) (replies : List Reply) (b : UpdateBatch) : Prop where
  covers : ∀ x, b.streams.covers x = true ↔ ∃ n ∈ known start replies x.stream, x.seq ≤ n
  increasing : ∀ stream, (known start replies stream).Pairwise (· < ·)
  entries : b.entries = (sinceClear replies).filterMap Reply.entry?
  deletions : ∀ domain, domain ∈ b.deletions ↔ domain ∈ (sinceClear replies).filterMap Reply.deletion?

namespace Books

variable {start : Streams} {replies : List Reply} {b : UpdateBatch}

/-- A fresh batch has nothing but the positions that it starts from. -/
theorem fresh (capacity : Nat) (start : Streams) : Books start [] { capacity, streams := start } where
  covers x := by
    simp only [Streams.covers_iff, known, numbers]
    cases start.get? x.stream <;> simp
  increasing stream := by
    cases h : start.get? stream <;> simp [known, numbers, h]
  entries := rfl
  deletions domain := by simp [sinceClear]

/-- One call. -/
theorem step (h : Books start replies b) (call : Item) :
    Books start (replies ++ [⟨call, (b.apply call).1⟩]) (b.apply call).2 where
  covers x := by
    rw [streams_apply, known_append]
    cases hid : Reply.accepted? ⟨call, (b.apply call).1⟩ with
    | none => simpa using h.covers x
    | some id =>
      rw [Option.elim_some, Streams.covers_advance, h.covers]
      by_cases hstream : id.stream = x.stream
      · simp [Option.filter, hstream, or_and_right, exists_or]
      · simp [Option.filter, hstream, Ne.symm hstream]
  increasing stream := by
    rw [known_append]
    cases hid : Reply.accepted? ⟨call, (b.apply call).1⟩ with
    | none => simpa using h.increasing stream
    | some id =>
      by_cases hstream : id.stream = stream
      · -- what is accepted is covered by none of the numbers before
        have hnew : ∀ n ∈ known start replies stream, n < id.seq := by
          intro n hn
          refine Int64.not_le.1 fun hle => ?_
          have hcovers : b.streams.covers id = true := (h.covers id).2 ⟨n, by rwa [hstream], hle⟩
          rw [covers_of_accepted hid] at hcovers
          cases hcovers
        have hone : ((some id).filter fun id => id.stream = stream).toList.map (·.seq) = [id.seq] := by
          simp [Option.filter, hstream]
        rw [hone]
        refine List.pairwise_append.2 ⟨h.increasing stream, List.pairwise_singleton _ _, fun n hn last hlast => ?_⟩
        rw [List.mem_singleton.1 hlast]
        exact hnew n hn
      · simpa [Option.filter, hstream] using h.increasing stream
  entries := by
    rw [entries_apply, sinceClear_append, h.entries]
    by_cases hclear : call = .clear
    · rw [if_pos hclear, if_pos hclear, List.filterMap_nil]
    · rw [if_neg hclear, if_neg hclear, List.filterMap_append, List.filterMap_cons, List.filterMap_nil]
      cases Reply.entry? ⟨call, (b.apply call).1⟩ <;> rfl
  deletions domain := by
    rw [mem_deletions_apply, sinceClear_append, h.deletions]
    by_cases hclear : call = .clear <;> simp [hclear]

/-- A run of calls. -/
theorem run (h : Books start replies b) (calls : List Item) :
    Books start (replies ++ (b.applyAll calls).1) (b.applyAll calls).2 := by
  induction calls generalizing b replies with
  | nil => rwa [applyAll, List.append_nil]
  | cons call calls ih =>
    have hrest := ih (h.step call)
    rwa [List.append_assoc] at hrest

/-- The positions are the greatest numbers that are known. -/
theorem get?_streams (h : Books start replies b) (stream : StreamId) :
    b.streams.get? stream = (known start replies stream).max? :=
  Streams.get?_eq_max? fun seq => h.covers ⟨stream, seq⟩

/-- An update is refused when the greatest number that is known reaches its own. -/
theorem refused_iff (h : Books start replies b) {call : Item} {id : UpdateId} (hid : call.id? = some id) :
    (b.apply call).1 = some false ↔ ∃ last, (known start replies id.stream).max? = some last ∧ id.seq ≤ last := by
  rw [answer_of_id? hid, Option.some.injEq, Bool.not_eq_false', Streams.covers_iff, h.get?_streams]

/-- An update is accepted when its number is above all that are known. -/
theorem accepted_iff (h : Books start replies b) {call : Item} {id : UpdateId} (hid : call.id? = some id) :
    (b.apply call).1 = some true ↔ ∀ n ∈ known start replies id.stream, n < id.seq := by
  rw [answer_of_id? hid, Option.some.injEq, Bool.not_eq_true', Bool.eq_false_iff, ne_eq, h.covers]
  simp only [not_exists, not_and, Int64.not_le]

end Books

theorem calls_applyAll (b : UpdateBatch) (calls : List Item) : (b.applyAll calls).1.map Reply.call = calls := by
  induction calls generalizing b with
  | nil => rfl
  | cons call calls ih => exact congrArg (call :: ·) (ih _)

/-- Whatever has been called on a batch, the numbers accepted on a stream increase and are above the one it started
from, an update is refused exactly when its number is not above the greatest of these, and no other call is; a refused
call changes nothing, the entries and the marked domains are those of the calls that had an effect since the last
`clear`, and the positions stand at the greatest number of each stream, whether the batch was emptied or not. -/
theorem books_after (capacity : Nat) (start : Streams) (calls : List Item) (replies : List Reply) (b : UpdateBatch)
    (h : ({ capacity, streams := start } : UpdateBatch).applyAll calls = (replies, b)) :
    replies.map Reply.call = calls ∧
      (∀ stream, (numbers stream replies).Pairwise (· < ·) ∧
        ∀ first, start.get? stream = some first → ∀ n ∈ numbers stream replies, first < n) ∧
      (∀ call id, call.id? = some id →
        ((b.apply call).1 = some false ↔
          ∃ last, (known start replies id.stream).max? = some last ∧ id.seq ≤ last) ∧
        ((b.apply call).1 = some true ↔ ∀ n ∈ known start replies id.stream, n < id.seq)) ∧
      (∀ call, call.id? = none → (b.apply call).1 = none) ∧
      (∀ call, (b.apply call).1 = some false → (b.apply call).2 = b) ∧
      b.entries = (sinceClear replies).filterMap Reply.entry? ∧
      (∀ domain, domain ∈ b.deletions ↔ domain ∈ (sinceClear replies).filterMap Reply.deletion?) ∧
      (∀ stream, b.streams.get? stream = (known start replies stream).max?) ∧ b.clear.streams = b.streams := by
  have hcalls := calls_applyAll { capacity, streams := start } calls
  have hbooks := (Books.fresh capacity start).run calls
  rw [h] at hcalls hbooks
  refine ⟨hcalls, ?_, ?_, fun call => answer_of_id?_none, fun call => apply_of_refused, hbooks.entries,
    hbooks.deletions, hbooks.get?_streams, streams_clear b⟩
  · intro stream
    obtain ⟨-, hnumbers, hstart⟩ := List.pairwise_append.1 (hbooks.increasing stream)
    refine ⟨hnumbers, fun first hfirst n hn => hstart first ?_ n hn⟩
    rw [hfirst]
    exact List.mem_singleton_self first
  · intro call id hid
    exact ⟨hbooks.refused_iff hid, hbooks.accepted_iff hid⟩

/-! ### A replay across a `clear` -/

def mixedCalls : List Item :=
  let pair : SentencePair := ⟨1, [7], [9], []⟩
  let other : SentencePair := ⟨2, [8], [9], []⟩
  [.add ⟨1, 5⟩ pair, .add ⟨1, 6⟩ pair, .delete ⟨1, 6⟩ 4, .delete ⟨1, 7⟩ 4, .add ⟨2, Int64.minValue⟩ other, .push pair,
    .clear, .add ⟨2, Int64.minValue⟩ pair, .deleteDomain 9, .add ⟨1, Int64.maxValue⟩ other, .push pair]

theorem books_after_mixedCalls :
    let start := Streams.ofList [(1, 5)]
    let run := ({ capacity := 2, streams := start } : UpdateBatch).applyAll mixedCalls
    run.1.map Reply.answer = [some false, some true, some false, some true, some true, none, none, some false, none,
        some true, none] ∧
      numbers 1 run.1 = [6, 7, Int64.maxValue] ∧ (numbers 1 run.1).Pairwise (· < ·) ∧
      run.2.entries = [⟨2, [8], [9], []⟩, ⟨1, [7], [9], []⟩] ∧
      (∀ domain, domain ∈ run.2.deletions ↔ domain ∈ [9]) ∧
      run.2.streams.get? 2 = some Int64.minValue := by
  intro start run
  obtain ⟨-, hnumbers, -, -, -, hentries, hdeletions, hstreams, -⟩ := books_after 2 start mixedCalls run.1 run.2 rfl
  have hdomains : (sinceClear run.1).filterMap Reply.deletion? = [9] := by decide +kernel
  rw [hdomains] at hdeletions
  exact ⟨by decide +kernel, by decide +kernel, (hnumbers 1).1, hentries.trans (by decide +kernel), hdeletions,
    (hstreams 2).trans (by decide +kernel)⟩

end UpdateBatch

end PhraseIndex

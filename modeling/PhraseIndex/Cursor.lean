import PhraseIndex.Store

/-!
# Cursors over the postings of a phrase

A cursor of all domains scans the records of a phrase as they are at its first step; a cursor of one domain reads that
domain's record when it is positioned. Of a phrase longer than the prefix length the leading words are looked up.
-/

namespace PhraseIndex

/-- The posting list of a phrase in one domain. -/
structure PrefixEntry where
  domain : Domain
  value : Bytes
  deriving DecidableEq, Repr

namespace PrefixEntry

/-- Number of postings. -/
def count (e : PrefixEntry) : Except Error Nat := PostingList.count e.value

/-- Adds the postings to `out`. -/
def values (e : PrefixEntry) (out : List Posting) : Except Error Unit × List Posting :=
  PostingList.decodeOnto out e.value

end PrefixEntry

/-- Where a cursor stands. -/
inductive CursorState
  | unset
  /-- Before the first of the records that start with these bytes. -/
  | before (start : Bytes)
  /-- Records still to come. -/
  | scanning (rest : List (Bytes × Bytes))
  /-- The one record, until it is taken. -/
  | single (entry : Option PrefixEntry)
  deriving DecidableEq, Repr

structure Cursor where
  prefixLength : PrefixLength
  /-- The only domain that is read; none for all of them. -/
  domain : Option Domain
  state : CursorState := .unset
  deriving DecidableEq, Repr

namespace Cursor

/-- Where a cursor over the phrase starts. The empty phrase matches nothing. -/
def locate (s : Store) (limit : PrefixLength) (domain : Option Domain) (phrase : Phrase) : CursorState :=
  let words := phrase.take limit.toNat
  if words.isEmpty then .single none
  else
    match domain with
    | none => .before (Key.scan words)
    | some domain => .single ((s.get? (Key.source words domain).encode).map fun value => { domain, value })

/-- Positions the cursor on a phrase. -/
def seek (c : Cursor) (s : Store) (phrase : Phrase) : Cursor :=
  { c with state := locate s c.prefixLength c.domain phrase }

/-- Fixes the records of a scan that has not begun. -/
def begin (c : Cursor) (s : Store) : Cursor :=
  match c.state with
  | .before start => { c with state := .scanning (s.scan start) }
  | _ => c

/-- The next entry of a cursor that has begun. -/
def step (c : Cursor) : Except Error (Option PrefixEntry) × Cursor :=
  match c.state with
  | .unset => (.error .cursorBeforeSeek, c)
  | .single entry => (.ok entry, { c with state := .single none })
  | .before _ | .scanning [] => (.ok none, c)
  | .scanning ((key, value) :: rest) =>
    let c := { c with state := .scanning rest }
    match Key.domainOf c.prefixLength key with
    | .ok domain => (.ok (some { domain, value }), c)
    | .error e => (.error e, c)

/-- The next entry, none at the end. A record whose key cannot be read is passed with an error. -/
def next (c : Cursor) (s : Store) : Except Error (Option PrefixEntry) × Cursor := (c.begin s).step

/-- Bound on the number of entries that are left once the cursor has begun. -/
def remaining (c : Cursor) : Nat :=
  match c.state with
  | .unset | .before _ => 0
  | .single entry => entry.toList.length
  | .scanning rest => rest.length

theorem remaining_step {c c' : Cursor} {e : PrefixEntry} (h : c.step = (.ok (some e), c')) :
    c'.remaining < c.remaining := by
  unfold step at h
  split at h
  · simp at h
  · next entry hs =>
    simp only [Prod.mk.injEq, Except.ok.injEq] at h
    obtain ⟨rfl, rfl⟩ := h
    simp [remaining, hs]
  · simp at h
  · simp at h
  · next key value rest hs =>
    dsimp only at h
    split at h
    · simp only [Prod.mk.injEq] at h
      obtain ⟨-, rfl⟩ := h
      simp [remaining, hs]
    · simp at h

/-- Adds up what `f` makes of the entries of a cursor that has begun; the first error ends it. -/
def foldSteps (f : β → PrefixEntry → Except Error β) (acc : β) (c : Cursor) : Except Error β × Cursor :=
  match _h : c.step with
  | (.error e, c') => (.error e, c')
  | (.ok none, c') => (.ok acc, c')
  | (.ok (some entry), c') =>
    match f acc entry with
    | .error e => (.error e, c')
    | .ok acc => foldSteps f acc c'
termination_by c.remaining
decreasing_by exact remaining_step _h

/-- Adds up what `f` makes of the entries that are left. -/
def foldEntries (c : Cursor) (s : Store) (f : β → PrefixEntry → Except Error β) (acc : β) : Except Error β × Cursor :=
  (c.begin s).foldSteps f acc

/-- Number of postings in the entries that are left. -/
def countRemaining (c : Cursor) (s : Store) : Except Error Nat × Cursor :=
  c.foldEntries s (fun total entry => do pure (total + (← entry.count))) 0

/-- Up to `n` of the entries that are left, errors in their places. -/
def take (s : Store) : Nat → Cursor → List (Except Error PrefixEntry) × Cursor
  | 0, c => ([], c)
  | n + 1, c =>
    match c.next s with
    | (.ok none, c) => ([], c)
    | (.ok (some entry), c) =>
      let (items, c) := take s n c
      (.ok entry :: items, c)
    | (.error e, c) =>
      let (items, c) := take s n c
      (.error e :: items, c)

end Cursor

end PhraseIndex

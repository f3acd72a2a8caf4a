import Mathlib.Data.List.Dedup
import PhraseIndex.Proofs.Merging

/-!
# A batch as a whole

The operands of a batch are grouped by key, and the groups are visited in any order. Each group is merged into the value
that its key had before the batch, and the new value waits behind those of the groups before (`Store.resolve`). Only
when all groups are merged do the waiting writes, then the puts and then the removes reach the index, the last write of
a key winning (`Store.write`).

So a batch is written as a whole or not at all, what it leaves is the one index that its writes say
(`WriteBatch.Leaves.unique`), and nothing of this depends on the order of the groups (`Store.write_atomic`).
-/

namespace PhraseIndex

/-- A write that waits: a key with its new value, or with none if the key goes. -/
abbrev Write := Bytes × Option Bytes

def Write.apply (m : ByteMap) (w : Write) : ByteMap :=
  match w.2 with
  | some value => m.insert w.1 value
  | none => m.erase w.1

namespace WriteBatch

variable {b : WriteBatch} {s s₁ s₂ : Store} {key : Bytes}

/-- The writes of a batch that need no merging. -/
def plain (b : WriteBatch) : List Write := b.puts.map (fun w => (w.1, some w.2)) ++ b.removes.map (·, none)

/-- The keys that a batch merges into. -/
def mergedKeys (b : WriteBatch) : List Bytes := b.merges.map (·.1)

/-- What a batch leaves of every key of an index. -/
structure Leaves (b : WriteBatch) (s s' : Store) : Prop where
  prefixLength : s'.prefixLength = s.prefixLength
  removed : ∀ key ∈ b.removes, s'.get? key = none
  put : ∀ key ∉ b.removes, ∀ value, (valuesOf b.puts key).getLast? = some value → s'.get? key = some value
  merged : ∀ key ∉ b.removes, valuesOf b.puts key = [] → key ∈ b.mergedKeys →
    ∃ value, Merge.full key (s.get? key) (b.operandsOf key) = .ok (some value) ∧ s'.get? key = some value
  kept : ∀ key ∉ b.removes, valuesOf b.puts key = [] → key ∉ b.mergedKeys → s'.get? key = s.get? key

/-- A batch leaves one index. -/
theorem Leaves.unique (h₁ : b.Leaves s s₁) (h₂ : b.Leaves s s₂) : s₁ = s₂ := by
  apply Store.ext_get? (h₁.prefixLength.trans h₂.prefixLength.symm)
  intro key
  by_cases hr : key ∈ b.removes
  · rw [h₁.removed key hr, h₂.removed key hr]
  · cases hp : (valuesOf b.puts key).getLast? with
    | some value => rw [h₁.put key hr value hp, h₂.put key hr value hp]
    | none =>
      have hputs := List.getLast?_eq_none_iff.1 hp
      by_cases hm : key ∈ b.mergedKeys
      · obtain ⟨v₁, hfull₁, hv₁⟩ := h₁.merged key hr hputs hm
        obtain ⟨v₂, hfull₂, hv₂⟩ := h₂.merged key hr hputs hm
        rw [hfull₁] at hfull₂
        cases hfull₂
        rw [hv₁, hv₂]
      · rw [h₁.kept key hr hputs hm, h₂.kept key hr hputs hm]

/-! ## The groups -/

theorem mem_mergedKeys : key ∈ b.mergedKeys ↔ b.operandsOf key ≠ [] := by
  rw [operandsOf, Ne, valuesOf_eq_nil_iff]
  simp [mergedKeys]

/-- The groups are the merged keys with their operands in order. -/
theorem mem_operands {ops : List Bytes} :
    (key, ops) ∈ b.operands.toList ↔ key ∈ b.mergedKeys ∧ b.operandsOf key = ops := by
  rw [Std.ExtTreeMap.mem_toList_iff_getElem?_eq_some, getElem?_operands, mem_mergedKeys]
  split
  · simp [*]
  · simp [*]

/-- There are as many groups as there are different merged keys. -/
theorem length_operands (b : WriteBatch) : b.operands.toList.length = b.mergedKeys.dedup.length := by
  have hkeys : (b.operands.toList.map (·.1)).Perm b.mergedKeys.dedup := by
    rw [List.perm_ext_iff_of_nodup (nodup_map_fst_toList _) (List.nodup_dedup _)]
    intro key
    rw [List.mem_dedup, List.mem_map]
    constructor
    · rintro ⟨⟨k, ops⟩, hg, rfl⟩
      exact (mem_operands.1 hg).1
    · intro hk
      exact ⟨_, mem_operands.2 ⟨hk, rfl⟩, rfl⟩
  rw [← hkeys.length_eq, List.length_map]

end WriteBatch

namespace Store

variable {s s' : Store} {b : WriteBatch} {visited other : List (Bytes × List Bytes)} {queued writes : List Write}
  {key value : Bytes}

/-- Visits the groups one by one, each with the value that its key has in the untouched index. -/
def resolve (s : Store) (queued : List Write) : List (Bytes × List Bytes) → Except Error (List Write)
  | [] => .ok queued
  | (key, operands) :: rest => do
    let value ← s.mergedValue key operands
    s.resolve (queued ++ [(key, some value)]) rest

def applyAll (m : ByteMap) (writes : List Write) : ByteMap := writes.foldl Write.apply m

/-- Writes a batch whose groups are visited in the given order: the outcome and the index that is left. -/
def write (s : Store) (b : WriteBatch) (visited : List (Bytes × List Bytes)) : Except Error CommitStats × Store :=
  match s.resolve [] visited with
  | .error e => (.error e, s)
  | .ok merged =>
    (.ok ⟨b.puts.length, visited.length, b.removes.length⟩, { s with index := applyAll s.index (merged ++ b.plain) })

/-! ## Visiting the groups -/

/-- The groups are visited if each can be merged, and each comes to one write behind those that wait already. -/
theorem resolve_eq_ok_iff : s.resolve queued visited = .ok writes ↔
    ∃ merged, s.mergeGroups visited = .ok merged ∧ queued ++ merged.map (fun w => (w.1, some w.2)) = writes := by
  induction visited generalizing queued with
  | nil => simp [resolve, mergeGroups, pure, Except.pure]
  | cons group rest ih =>
    simp only [resolve, bind_eq_ok_iff, ih, mergeGroups_eq_ok_iff]
    constructor
    · rintro ⟨value, hv, merged, hrest, rfl⟩
      exact ⟨(group.1, value) :: merged, .cons ⟨hv, rfl⟩ hrest, by simp⟩
    · rintro ⟨merged, hall, rfl⟩
      cases hall with
      | @cons _ w _ merged hw hrest =>
        refine ⟨w.2, hw.1, merged, hrest, ?_⟩
        simp [hw.2]

/-- Groups are merged unless one of them cannot be. -/
theorem exists_mergeGroups_iff :
    (∃ merged, s.mergeGroups visited = .ok merged) ↔ ∀ g ∈ visited, ∃ value, s.mergedValue g.1 g.2 = .ok value := by
  constructor
  · rintro ⟨merged, h⟩ g hg
    have hall := mergeGroups_eq_ok_iff.1 h
    clear h
    induction hall with
    | nil => cases hg
    | cons hw _ ih =>
      rcases List.mem_cons.1 hg with rfl | hg
      · exact ⟨_, hw.1⟩
      · exact ih hg
  · intro h
    apply mapM_isOk
    intro g hg
    obtain ⟨value, hv⟩ := h g hg
    exact ⟨(g.1, value), map_eq_ok_iff.2 ⟨value, hv, rfl⟩⟩

theorem valuesOf_visited (hv : visited.Perm b.operands.toList) (key : Bytes) :
    valuesOf visited key = if key ∈ b.mergedKeys then [b.operandsOf key] else [] := by
  have hnodup : (visited.map (·.1)).Nodup := (hv.map _).nodup_iff.2 (nodup_map_fst_toList _)
  split
  · next hk => exact valuesOf_eq_singleton hnodup (hv.mem_iff.2 (WriteBatch.mem_operands.2 ⟨hk, rfl⟩))
  · next hk =>
    rw [valuesOf_eq_nil_iff]
    intro ops hg
    exact hk (WriteBatch.mem_operands.1 (hv.mem_iff.1 hg)).1

/-! ## The writes that reach the index -/

/-- The last write of a key wins, be it a value or a removal. -/
theorem getElem?_applyAll (m : ByteMap) (writes : List Write) (key : Bytes) :
    (applyAll m writes)[key]? = (valuesOf writes key).getLast?.getD m[key]? := by
  induction writes generalizing m with
  | nil => rfl
  | cons w writes ih =>
    change (applyAll (w.apply m) writes)[key]? = _
    have hw : (w.apply m)[key]? = if w.1 = key then w.2 else m[key]? := by
      obtain ⟨k, value⟩ := w
      cases value with
      | some value => simp [Write.apply, Std.ExtTreeMap.getElem?_insert]
      | none => simp [Write.apply, Std.ExtTreeMap.getElem?_erase]
    rw [ih, hw, valuesOf_cons]
    split
    · cases hl : valuesOf writes key with
      | nil => rfl
      | cons v vs => simp [List.getLast?_cons]
    · rfl

theorem valuesOf_removals (keys : List Bytes) (key : Bytes) :
    valuesOf (keys.map (·, (none : Option Bytes))) key = List.replicate (keys.count key) none := by
  induction keys with
  | nil => rfl
  | cons k keys ih =>
    rw [List.map_cons, valuesOf_cons, ih]
    by_cases hk : k = key
    · simp [hk, List.replicate_succ]
    · simp [hk]

/-- A key that a batch removes or puts is left so, whatever waited for it before. -/
theorem getElem?_applyAll_plain (m : ByteMap) (queued : List Write) (b : WriteBatch) (key : Bytes) :
    (applyAll m (queued ++ b.plain))[key]? =
      if key ∈ b.removes then none
      else (valuesOf b.puts key).getLast?.or ((valuesOf queued key).getLast?.getD m[key]?) := by
  rw [getElem?_applyAll, WriteBatch.plain, valuesOf_append, valuesOf_append, valuesOf_map some b.puts,
    valuesOf_removals]
  split
  · next hr =>
    have hcount : b.removes.count key ≠ 0 := fun hzero => List.count_eq_zero.1 hzero hr
    simp [List.getLast?_append, List.getLast?_replicate, hcount]
  · next hr =>
    rw [List.count_eq_zero.2 hr]
    cases hp : (valuesOf b.puts key).getLast? with
    | none => simp [hp, List.getLast?_append]
    | some value => simp [hp, List.getLast?_append]

/-! ## The batch as a whole -/

/-- The index after the merged values and the other writes of a batch. -/
def written (s : Store) (b : WriteBatch) (merged : List (Bytes × Bytes)) : Store :=
  { s with index := applyAll s.index (merged.map (fun w => (w.1, some w.2)) ++ b.plain) }

/-- A write either merges all groups and then applies all writes, or changes nothing. -/
theorem write_cases (s : Store) (b : WriteBatch) (visited : List (Bytes × List Bytes)) :
    (∃ merged, s.mergeGroups visited = .ok merged ∧
      s.write b visited = (.ok ⟨b.puts.length, visited.length, b.removes.length⟩, s.written b merged)) ∨
    ((∀ merged, s.mergeGroups visited ≠ .ok merged) ∧ ∃ e, s.write b visited = (.error e, s)) := by
  cases hr : s.resolve [] visited with
  | ok merged =>
    obtain ⟨values, hmerge, rfl⟩ := resolve_eq_ok_iff.1 hr
    refine .inl ⟨values, hmerge, ?_⟩
    rw [write, hr]
    rfl
  | error e =>
    refine .inr ⟨?_, e, ?_⟩
    · intro merged hmerge
      have hok : s.resolve [] visited = .ok ([] ++ merged.map fun w => (w.1, some w.2)) :=
        resolve_eq_ok_iff.2 ⟨merged, hmerge, rfl⟩
      rw [hr] at hok
      cases hok
    · rw [write, hr]

/-- Once all groups are merged, the writes leave the index that the batch says. -/
theorem leaves_written {merged : List (Bytes × Bytes)} (hv : visited.Perm b.operands.toList)
    (h : s.mergeGroups visited = .ok merged) : b.Leaves s (s.written b merged) := by
  have hget : ∀ key, (s.written b merged).get? key = if key ∈ b.removes then none
      else (valuesOf b.puts key).getLast?.or (((valuesOf merged key).map some).getLast?.getD (s.get? key)) := by
    intro key
    rw [get?, written, getElem?_applyAll_plain, valuesOf_map some merged]
    rfl
  have hmerged := valuesOf_mergeGroups h
  constructor
  case prefixLength => rfl
  case removed =>
    intro key hr
    rw [hget, if_pos hr]
  case put =>
    intro key hr value hp
    rw [hget, if_neg hr, hp]
    rfl
  case merged =>
    intro key hr hp hk
    have hall := hmerged key
    rw [valuesOf_visited hv, if_pos hk] at hall
    obtain ⟨value, rest, hvalue, hrest, hvalues⟩ := List.forall₂_cons_left_iff.1 hall
    rw [List.forall₂_nil_left_iff] at hrest
    refine ⟨value, mergedValue_eq_ok_iff.1 hvalue, ?_⟩
    rw [hget, if_neg hr, hp, hvalues, hrest]
    rfl
  case kept =>
    intro key hr hp hk
    have hall := hmerged key
    rw [valuesOf_visited hv, if_neg hk, List.forall₂_nil_left_iff] at hall
    rw [hget, if_neg hr, hp, hall]
    rfl

/-- The merge of a key's operands fails or does not apply. -/
def Refuses (s : Store) (b : WriteBatch) (key : Bytes) : Prop :=
  (∃ e, Merge.full key (s.get? key) (b.operandsOf key) = .error e) ∨
    Merge.full key (s.get? key) (b.operandsOf key) = .ok none

theorem refuses_iff : s.Refuses b key ↔ ∀ value, s.mergedValue key (b.operandsOf key) ≠ .ok value := by
  simp only [Refuses, Ne, mergedValue_eq_ok_iff]
  cases Merge.full key (s.get? key) (b.operandsOf key) with
  | error e => simp
  | ok merged => cases merged <;> simp

/-- Whatever the order of the groups, they are merged unless a key refuses. -/
theorem exists_mergeGroups_of_perm (hv : visited.Perm b.operands.toList) :
    (∃ merged, s.mergeGroups visited = .ok merged) ↔ ∀ key ∈ b.mergedKeys, ¬s.Refuses b key := by
  simp only [exists_mergeGroups_iff, refuses_iff, not_forall, not_not]
  constructor
  · intro h key hk
    exact h (key, b.operandsOf key) (hv.mem_iff.2 (WriteBatch.mem_operands.2 ⟨hk, rfl⟩))
  · rintro h ⟨key, ops⟩ hg
    obtain ⟨hk, rfl⟩ := WriteBatch.mem_operands.1 (hv.mem_iff.1 hg)
    exact h key hk

/-- A write that fails met a key that refuses, and left the index alone; another one left what the batch says. -/
theorem write_spec (s : Store) (hv : visited.Perm b.operands.toList) :
    ((∀ key ∈ b.mergedKeys, ¬s.Refuses b key) ∧ ∃ s', b.Leaves s s' ∧
      s.write b visited = (.ok ⟨b.puts.length, b.mergedKeys.dedup.length, b.removes.length⟩, s')) ∨
    ((∃ key ∈ b.mergedKeys, s.Refuses b key) ∧ ∃ e, s.write b visited = (.error e, s)) := by
  rcases write_cases s b visited with ⟨merged, hmerge, hwrite⟩ | ⟨hnone, hwrite⟩
  · refine .inl ⟨(exists_mergeGroups_of_perm hv).1 ⟨merged, hmerge⟩, _, leaves_written hv hmerge, ?_⟩
    rw [hwrite, hv.length_eq, b.length_operands]
  · refine .inr ⟨?_, hwrite⟩
    by_contra! hall
    obtain ⟨merged, hmerge⟩ := (exists_mergeGroups_of_perm hv).2 hall
    exact hnone merged hmerge

/-- The store commits a batch as it is written in the order of the keys. -/
theorem commit_eq_ok_iff_write {r : CommitStats × Store} :
    s.commit b = .ok r ↔ s.write b b.operands.toList = (.ok r.1, r.2) := by
  have hsame : ∀ merged, s.written b merged =
      { s with index := removeAll (putAll (putAll s.index merged) b.puts) b.removes } := by
    intro merged
    rw [written, applyAll, WriteBatch.plain]
    simp only [List.foldl_append, List.foldl_map]
    rfl
  rw [commit_eq_ok_iff]
  rcases write_cases s b b.operands.toList with ⟨merged, hmerge, hwrite⟩ | ⟨hnone, e, hwrite⟩
  · have hlength := (mergeGroups_eq_ok_iff.1 hmerge).length_eq
    rw [hwrite, hsame, hlength]
    constructor
    · rintro ⟨other, hother, rfl⟩
      rw [mergedValues, ← mergeGroups, hmerge] at hother
      cases hother
      rfl
    · intro heq
      refine ⟨merged, hmerge, ?_⟩
      rw [Prod.mk.injEq, Except.ok.injEq] at heq
      exact Prod.ext heq.1 heq.2
  · rw [hwrite]
    constructor
    · rintro ⟨merged, hmerge, -⟩
      exact absurd hmerge (hnone merged)
    · intro heq
      cases (Prod.mk.inj heq).1

/-- A batch is written whole or not at all. It fails if and only if the operands of a merged key cannot be merged into
the value before the batch, and then the index is as before. Otherwise it leaves the index that its removes, its last
puts and its merges say, and counts its puts, the different keys that it merges into and its removes. The order in which
the merged keys are visited changes neither the outcome nor the index, nor does the order in which the store visits
them. -/
theorem write_atomic (s : Store) (b : WriteBatch) (visited : List (Bytes × List Bytes))
    (hv : visited.Perm b.operands.toList) :
    ((∃ e, (s.write b visited).1 = .error e) ↔ ∃ key ∈ b.mergedKeys,
      (∃ e, Merge.full key (s.get? key) (b.operandsOf key) = .error e) ∨
        Merge.full key (s.get? key) (b.operandsOf key) = .ok none) ∧
    (∀ e, (s.write b visited).1 = .error e → (s.write b visited).2 = s) ∧
    (∀ stats, (s.write b visited).1 = .ok stats →
      stats = ⟨b.puts.length, b.mergedKeys.dedup.length, b.removes.length⟩ ∧ b.Leaves s (s.write b visited).2) ∧
    (∀ other, other.Perm b.operands.toList →
      (s.write b other).1.toOption = (s.write b visited).1.toOption ∧ (s.write b other).2 = (s.write b visited).2) ∧
    ∀ r, s.commit b = .ok r ↔ s.write b visited = (.ok r.1, r.2) := by
  -- Every order comes to the same, since the batch leaves one index.
  have horder : ∀ other, other.Perm b.operands.toList →
      (s.write b other).1.toOption = (s.write b visited).1.toOption ∧ (s.write b other).2 = (s.write b visited).2 := by
    intro other hother
    rcases write_spec s hv with ⟨hok, s₁, hs₁, h₁⟩ | ⟨⟨key, hk, hrefuse⟩, e₁, h₁⟩
    · rcases write_spec s hother with ⟨-, s₂, hs₂, h₂⟩ | ⟨⟨key, hk, hrefuse⟩, -⟩
      · rw [h₁, h₂, hs₁.unique hs₂]
        exact ⟨rfl, rfl⟩
      · exact absurd hrefuse (hok key hk)
    · rcases write_spec s hother with ⟨hok, -⟩ | ⟨-, e₂, h₂⟩
      · exact absurd hrefuse (hok key hk)
      · rw [h₁, h₂]
        exact ⟨rfl, rfl⟩
  refine ⟨?_, ?_, ?_, horder, ?_⟩
  · rcases write_spec s hv with ⟨hok, s', -, h⟩ | ⟨hrefuse, e, h⟩
    · rw [h]
      simp only [reduceCtorEq, exists_false, false_iff, not_exists, not_and]
      exact hok
    · rw [h]
      exact ⟨fun _ => hrefuse, fun _ => ⟨e, rfl⟩⟩
  · intro e he
    rcases write_spec s hv with ⟨-, s', -, h⟩ | ⟨-, e', h⟩
    · rw [h] at he
      cases he
    · rw [h]
  · intro stats hstats
    rcases write_spec s hv with ⟨-, s', hs', h⟩ | ⟨-, e, h⟩
    · rw [h] at hstats ⊢
      cases hstats
      exact ⟨rfl, hs'⟩
    · rw [h] at hstats
      cases hstats
  · intro r
    rw [commit_eq_ok_iff_write]
    obtain ⟨hstats, hindex⟩ := horder _ (.refl b.operands.toList)
    rw [Prod.ext_iff, Prod.ext_iff, hindex, ← toOption_eq_some_iff, ← toOption_eq_some_iff, hstats]

def counted : Store where
  index := .ofList ([([3, 1], Count.encode 5), ([3, 2], Count.encode 7)] : List (Bytes × Bytes))

/-- A batch that merges into a key that it puts, into one that it removes and twice into one of its own. -/
def overlapping : WriteBatch where
  puts := [([0], [1]), ([3, 1], [9]), ([0], [2])]
  merges := [([3, 3], Count.encode 2), ([3, 1], Count.encode 1), ([3, 2], []), ([3, 3], Count.encode 4)]
  removes := [[3, 2], [4], [3, 2]]

/-- The same batch with an operand that is no count, for the key that it removes. -/
def spoiling : WriteBatch := { overlapping with merges := overlapping.merges ++ [([3, 2], [7])] }

theorem write_atomic_overlapping :
    (∃ s', counted.write overlapping overlapping.operands.toList.reverse = (.ok ⟨3, 3, 3⟩, s') ∧
      overlapping.Leaves counted s' ∧ counted.commit overlapping = .ok (⟨3, 3, 3⟩, s')) ∧
    ∃ e, counted.write spoiling spoiling.operands.toList.reverse = (.error e, counted) := by
  obtain ⟨-, -, hleaves, -, hcommit⟩ :=
    write_atomic counted overlapping overlapping.operands.toList.reverse (List.reverse_perm _)
  obtain ⟨hspoiled, hkept, -⟩ := write_atomic counted spoiling spoiling.operands.toList.reverse (List.reverse_perm _)
  constructor
  · have hstats : (counted.write overlapping overlapping.operands.toList.reverse).1.toOption = some ⟨3, 3, 3⟩ := by
      decide +kernel
    rw [toOption_eq_some_iff] at hstats
    obtain ⟨-, hs'⟩ := hleaves _ hstats
    refine ⟨_, Prod.ext hstats rfl, hs', ?_⟩
    exact (hcommit _).2 (Prod.ext hstats rfl)
  · obtain ⟨e, he⟩ := hspoiled.2 ⟨[3, 2], by decide, .inl ⟨.countSize 1, rfl⟩⟩
    exact ⟨e, Prod.ext he (hkept e he)⟩

end Store

end PhraseIndex

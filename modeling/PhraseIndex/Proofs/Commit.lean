import Mathlib.Data.List.Nodup
import PhraseIndex.Proofs.Results
import PhraseIndex.Store

/-!
# What a commit does to a key

A committed batch leaves every key in the state that its writes say (`Store.get?_commit`): absent if it is removed, else
with its last put value, else with its operands merged in, else untouched. It fails only if an operand cannot be merged
(`Store.exists_commit`), and then nothing is written.
-/

namespace PhraseIndex

/-! ## Collecting by key -/

section Collecting

variable {α : Type}

/-- The values that stand under a key, in order. -/
def valuesOf (xs : List (Bytes × α)) (key : Bytes) : List α := (xs.filter (·.1 == key)).map (·.2)

@[simp] theorem valuesOf_nil (key : Bytes) : valuesOf ([] : List (Bytes × α)) key = [] := rfl

theorem valuesOf_cons (x : Bytes × α) (xs : List (Bytes × α)) (key : Bytes) :
    valuesOf (x :: xs) key = if x.1 = key then x.2 :: valuesOf xs key else valuesOf xs key := by
  by_cases h : x.1 = key <;> simp [valuesOf, h]

theorem valuesOf_append (xs ys : List (Bytes × α)) (key : Bytes) :
    valuesOf (xs ++ ys) key = valuesOf xs key ++ valuesOf ys key := by
  simp [valuesOf]

theorem valuesOf_reverse (xs : List (Bytes × α)) (key : Bytes) :
    valuesOf xs.reverse key = (valuesOf xs key).reverse := by
  simp [valuesOf]

theorem valuesOf_map (f : α → β) (xs : List (Bytes × α)) (key : Bytes) :
    valuesOf (xs.map fun x => (x.1, f x.2)) key = (valuesOf xs key).map f := by
  induction xs with
  | nil => rfl
  | cons x xs ih =>
    simp only [List.map_cons, valuesOf_cons, ih]
    split <;> rfl

theorem mem_valuesOf {xs : List (Bytes × α)} {key : Bytes} {x : α} : x ∈ valuesOf xs key ↔ (key, x) ∈ xs := by
  simp only [valuesOf, List.mem_map, List.mem_filter, beq_iff_eq]
  constructor
  · rintro ⟨⟨k, y⟩, ⟨hy, rfl⟩, rfl⟩
    exact hy
  · intro h
    exact ⟨(key, x), ⟨h, rfl⟩, rfl⟩

/-- Putting values one by one in front of those under their key collects them in order. -/
theorem getElem?_foldr_alter (xs : List (Bytes × α)) (key : Bytes) :
    (xs.foldr (fun (k, x) m => m.alter k fun l => some (x :: l.getD [])) (∅ : Std.ExtTreeMap Bytes (List α)))[key]? =
      if valuesOf xs key = [] then none else some (valuesOf xs key) := by
  induction xs with
  | nil => rfl
  | cons x xs ih =>
    rw [List.foldr_cons, Std.ExtTreeMap.getElem?_alter, valuesOf_cons]
    by_cases hx : x.1 = key
    · subst hx
      simp only [Std.ReflCmp.compare_self, ↓reduceIte, ih]
      split
      · simp [*]
      · simp
    · simp only [Std.LawfulEqCmp.compare_eq_iff_eq, hx, ↓reduceIte, ih]

theorem valuesOf_eq_nil_iff {xs : List (Bytes × α)} {key : Bytes} : valuesOf xs key = [] ↔ ∀ x, (key, x) ∉ xs := by
  simp only [List.eq_nil_iff_forall_not_mem, mem_valuesOf]

/-- Under a key that does not repeat stands one value. -/
theorem valuesOf_eq_singleton {xs : List (Bytes × α)} {key : Bytes} {x : α} (hd : (xs.map (·.1)).Nodup)
    (h : (key, x) ∈ xs) : valuesOf xs key = [x] := by
  induction xs with
  | nil => cases h
  | cons y xs ih =>
    simp only [List.map_cons, List.nodup_cons, List.mem_map, not_exists, not_and] at hd
    rw [valuesOf_cons]
    rcases List.mem_cons.1 h with rfl | h
    · have hnil : valuesOf xs key = [] := valuesOf_eq_nil_iff.2 fun z hz => hd.1 _ hz rfl
      simp [hnil]
    · have hne : ¬y.1 = key := fun hk => hd.1 _ h hk.symm
      rw [if_neg hne]
      exact ih hd.2 h

/-- The order of values under different keys does not matter. -/
theorem valuesOf_perm {xs ys : List (Bytes × α)} (h : xs.Perm ys) (hd : (xs.map (·.1)).Nodup) (key : Bytes) :
    valuesOf xs key = valuesOf ys key := by
  by_cases hk : ∃ x, (key, x) ∈ xs
  · obtain ⟨x, hx⟩ := hk
    rw [valuesOf_eq_singleton hd hx, valuesOf_eq_singleton ((h.map _).nodup_iff.1 hd) (h.subset hx)]
  · have hx : ∀ x, (key, x) ∉ xs := fun x hx => hk ⟨x, hx⟩
    rw [valuesOf_eq_nil_iff.2 hx, valuesOf_eq_nil_iff.2 fun x hy => hx x (h.mem_iff.2 hy)]

/-- Among keys that do not repeat the last value is the only one. -/
theorem getLast?_valuesOf_eq_some_iff {xs : List (Bytes × α)} (hd : (xs.map (·.1)).Nodup) {key : Bytes} {x : α} :
    (valuesOf xs key).getLast? = some x ↔ (key, x) ∈ xs := by
  constructor
  · intro h
    exact mem_valuesOf.1 (List.mem_of_getLast? h)
  · intro h
    rw [valuesOf_eq_singleton hd h]
    rfl

theorem nodup_map_fst_toList (m : Std.ExtTreeMap Bytes α) : (m.toList.map (·.1)).Nodup := by
  rw [Std.ExtTreeMap.map_fst_toList_eq_keys]
  exact Std.ExtTreeMap.nodup_keys

/-- A map holds one value under each of its keys. -/
theorem valuesOf_toList (m : Std.ExtTreeMap Bytes α) (key : Bytes) : valuesOf m.toList key = m[key]?.toList := by
  cases hv : m[key]? with
  | none =>
    apply valuesOf_eq_nil_iff.2
    intro x hx
    rw [Std.ExtTreeMap.mem_toList_iff_getElem?_eq_some, hv] at hx
    cases hx
  | some v => exact valuesOf_eq_singleton (nodup_map_fst_toList m) (Std.ExtTreeMap.mem_toList_iff_getElem?_eq_some.2 hv)

end Collecting

/-! ## The operands of a batch -/

/-- The operands queued for a key, in order. -/
def WriteBatch.operandsOf (b : WriteBatch) (key : Bytes) : List Bytes := valuesOf b.merges key

theorem WriteBatch.getElem?_operands (b : WriteBatch) (key : Bytes) :
    b.operands[key]? = if b.operandsOf key = [] then none else some (b.operandsOf key) :=
  getElem?_foldr_alter b.merges key

namespace Store

variable {s s' : Store} {b : WriteBatch} {stats : CommitStats} {key : Bytes}

/-- An index is what it holds under every key. -/
theorem ext_get? (hl : s.prefixLength = s'.prefixLength) (h : ∀ key, s.get? key = s'.get? key) : s = s' := by
  obtain ⟨index, limit⟩ := s
  obtain ⟨index', limit'⟩ := s'
  cases hl
  exact congrArg (Store.mk · limit) (Std.ExtTreeMap.ext_getElem? h)

/-! ## Writing and removing -/

/-- The last write of a key wins. -/
theorem getElem?_putAll (m : ByteMap) (writes : List (Bytes × Bytes)) (key : Bytes) :
    (putAll m writes)[key]? = (valuesOf writes key).getLast?.or m[key]? := by
  induction writes generalizing m with
  | nil => rfl
  | cons w writes ih =>
    change (putAll (m.insert w.1 w.2) writes)[key]? = _
    rw [ih, Std.ExtTreeMap.getElem?_insert, valuesOf_cons]
    by_cases hw : w.1 = key
    · subst hw
      cases hl : valuesOf writes w.1 with
      | nil => simp
      | cons v vs => simp [List.getLast?_cons]
    · simp [hw]

theorem getElem?_removeAll (m : ByteMap) (keys : List Bytes) (key : Bytes) :
    (removeAll m keys)[key]? = if key ∈ keys then none else m[key]? := by
  induction keys generalizing m with
  | nil => simp [removeAll]
  | cons k keys ih =>
    change (removeAll (m.erase k) keys)[key]? = _
    rw [ih, Std.ExtTreeMap.getElem?_erase]
    by_cases hk : k = key
    · simp [hk]
    · simp [hk, Ne.symm hk]

/-! ## Merging -/

/-- The new values of groups of operands, each merged under its key. -/
def mergeGroups (s : Store) (groups : List (Bytes × List Bytes)) : Except Error (List (Bytes × Bytes)) :=
  groups.mapM fun (key, operands) => (key, ·) <$> s.mergedValue key operands

theorem mergeGroups_eq_ok_iff {groups : List (Bytes × List Bytes)} {merged : List (Bytes × Bytes)} :
    s.mergeGroups groups = .ok merged ↔
      List.Forall₂ (fun g w => s.mergedValue g.1 g.2 = .ok w.2 ∧ g.1 = w.1) groups merged := by
  have hgroup : ∀ (g : Bytes × List Bytes) (w : Bytes × Bytes),
      (g.1, ·) <$> s.mergedValue g.1 g.2 = .ok w ↔ s.mergedValue g.1 g.2 = .ok w.2 ∧ g.1 = w.1 := by
    intro g w
    rw [map_eq_ok_iff]
    constructor
    · rintro ⟨value, hv, rfl⟩
      exact ⟨hv, rfl⟩
    · rintro ⟨hv, hkey⟩
      exact ⟨w.2, hv, Prod.ext hkey rfl⟩
  rw [mergeGroups, mapM_eq_ok_iff]
  simp only [hgroup]

/-- A group has its merged value among the new ones, a key without a group has none. -/
theorem valuesOf_mergeGroups {groups : List (Bytes × List Bytes)} {merged : List (Bytes × Bytes)}
    (h : s.mergeGroups groups = .ok merged) (key : Bytes) :
    List.Forall₂ (fun ops v => s.mergedValue key ops = .ok v) (valuesOf groups key) (valuesOf merged key) := by
  have hall := mergeGroups_eq_ok_iff.1 h
  clear h
  induction hall with
  | nil => exact .nil
  | @cons x y xs ys hxy _ ih =>
    obtain ⟨hv, hkey⟩ := hxy
    rw [valuesOf_cons, valuesOf_cons, ← hkey]
    by_cases hk : x.1 = key
    · subst hk
      simpa using ⟨hv, ih⟩
    · simpa [hk] using ih

theorem valuesOf_mergedValues {merged : List (Bytes × Bytes)} (h : s.mergedValues b = .ok merged) (key : Bytes) :
    List.Forall₂ (fun ops v => s.mergedValue key ops = .ok v) b.operands[key]?.toList (valuesOf merged key) := by
  rw [← valuesOf_toList]
  exact valuesOf_mergeGroups h key

/-- What a key holds once the merges of a batch are made. -/
def mergedAt (s : Store) (b : WriteBatch) (key : Bytes) : Option Bytes :=
  if b.operandsOf key = [] then s.get? key else (s.mergedValue key (b.operandsOf key)).toOption

theorem getElem?_putAll_merged {merged : List (Bytes × Bytes)} (h : s.mergedValues b = .ok merged) (key : Bytes) :
    (putAll s.index merged)[key]? = s.mergedAt b key := by
  have hall := valuesOf_mergedValues h key
  rw [getElem?_putAll, mergedAt]
  rw [WriteBatch.getElem?_operands] at hall
  split at hall
  · next hnil =>
    rw [Option.toList_none, List.forall₂_nil_left_iff] at hall
    rw [hall, if_pos hnil]
    rfl
  · next hne =>
    obtain ⟨v, vs, hv, hvs, hl⟩ := List.forall₂_cons_left_iff.1 hall
    rw [List.forall₂_nil_left_iff] at hvs
    rw [hl, hvs, if_neg hne, hv]
    rfl

/-! ## The commit -/

/-- What a committed batch leaves. -/
theorem commit_eq_ok_iff {r : CommitStats × Store} :
    s.commit b = .ok r ↔ ∃ merged, s.mergedValues b = .ok merged ∧
      (⟨b.puts.length, merged.length, b.removes.length⟩,
        { s with index := removeAll (putAll (putAll s.index merged) b.puts) b.removes }) = r := by
  simp only [commit, bind_eq_ok_iff, pure, Except.pure, Except.ok.injEq]

/-- Every key after a commit. -/
theorem get?_commit (h : s.commit b = .ok (stats, s')) (key : Bytes) :
    s'.get? key =
      if key ∈ b.removes then none else (valuesOf b.puts key).getLast?.or (s.mergedAt b key) := by
  obtain ⟨merged, hm, he⟩ := commit_eq_ok_iff.1 h
  rw [Prod.mk.injEq] at he
  obtain ⟨-, rfl⟩ := he
  rw [get?, getElem?_removeAll, getElem?_putAll, getElem?_putAll_merged hm]

theorem prefixLength_commit (h : s.commit b = .ok (stats, s')) : s'.prefixLength = s.prefixLength := by
  obtain ⟨merged, hm, he⟩ := commit_eq_ok_iff.1 h
  rw [Prod.mk.injEq] at he
  obtain ⟨-, rfl⟩ := he
  rfl

/-- A commit counts every key that was queued for removal. -/
theorem removes_commit (h : s.commit b = .ok (stats, s')) : stats.removes = b.removes.length := by
  obtain ⟨merged, hm, he⟩ := commit_eq_ok_iff.1 h
  rw [← (Prod.mk.inj he).1]

/-- In a committed batch every merge succeeded. -/
theorem mergedAt_commit (h : s.commit b = .ok (stats, s')) (hk : b.operandsOf key ≠ []) :
    ∃ v, s.mergedValue key (b.operandsOf key) = .ok v ∧ s.mergedAt b key = some v := by
  obtain ⟨merged, hm, -⟩ := commit_eq_ok_iff.1 h
  have hall := valuesOf_mergedValues hm key
  rw [WriteBatch.getElem?_operands, if_neg hk] at hall
  obtain ⟨v, vs, hv, -, -⟩ := List.forall₂_cons_left_iff.1 hall
  refine ⟨v, hv, ?_⟩
  rw [mergedAt, if_neg hk, hv]
  rfl

/-- A batch is committed unless one of its merges fails. -/
theorem exists_commit (s : Store) (b : WriteBatch)
    (h : ∀ key, b.operandsOf key ≠ [] → ∃ v, s.mergedValue key (b.operandsOf key) = .ok v) :
    ∃ r, s.commit b = .ok r := by
  have hm : ∃ merged, s.mergedValues b = .ok merged := by
    apply mapM_isOk
    intro x hx
    obtain ⟨key, ops⟩ := x
    have hops := Std.ExtTreeMap.mem_toList_iff_getElem?_eq_some.1 hx
    rw [WriteBatch.getElem?_operands] at hops
    split at hops
    · cases hops
    · next hne =>
      cases hops
      obtain ⟨v, hv⟩ := h key hne
      exact ⟨(key, v), map_eq_ok_iff.2 ⟨v, hv, rfl⟩⟩
  obtain ⟨merged, hm⟩ := hm
  exact ⟨_, commit_eq_ok_iff.2 ⟨merged, hm, rfl⟩⟩

/-- A batch whose merges succeed is committed to the index that its writes say. -/
theorem commit_of_get? (hm : ∀ key, b.operandsOf key ≠ [] → ∃ v, s.mergedValue key (b.operandsOf key) = .ok v)
    (hl : s'.prefixLength = s.prefixLength)
    (hg : ∀ key, s'.get? key =
      if key ∈ b.removes then none else (valuesOf b.puts key).getLast?.or (s.mergedAt b key)) :
    ∃ stats, s.commit b = .ok (stats, s') := by
  obtain ⟨⟨stats, s₁⟩, h⟩ := exists_commit s b hm
  have hsame : s₁ = s' := by
    apply ext_get? ((prefixLength_commit h).trans hl.symm)
    intro key
    rw [get?_commit h, hg]
  rw [← hsame]
  exact ⟨stats, h⟩

/-- Removing keys never fails. -/
theorem exists_commit_removes (s : Store) (keys : List Bytes) :
    ∃ stats s', s.commit { removes := keys } = .ok (stats, s') := by
  obtain ⟨⟨stats, s'⟩, h⟩ := exists_commit s { removes := keys } fun key hk => absurd rfl hk
  exact ⟨stats, s', h⟩

end Store

end PhraseIndex

import Mathlib.Algebra.BigOperators.Group.List.Basic
import Mathlib.Algebra.Ring.Int.Defs
import Mathlib.Data.List.Perm.Basic
import PhraseIndex.Merge
import PhraseIndex.Proofs.Values

/-!
# Merging in any grouping and order

Both kinds of values that are merged have an algebra (`Merge.Algebra`): values are read, what is read has a total, and
that is written. Merging a row of values under a key is merging in its algebra (`Merge.full_source`,
`Merge.full_target`), and there it does not matter which of the values are merged first (`Merge.Algebra.merge_append`,
`Merge.Algebra.merge_group`). The total of counts does not depend on their order, and that of posting lists only in the
order of the postings. All of this together is `Merge.full_regroup`.
-/

namespace PhraseIndex.Merge

/-- Values that are merged: how they are read and written, and what a row of them comes to. -/
structure Algebra (M : Type) where
  read : Bytes → Except Error M
  write : M → Bytes
  total : List M → M
  read_write (m : M) : read (write m) = .ok m
  total_group (before group after : List M) :
    total (before ++ total group :: after) = total (before ++ group ++ after)

namespace Algebra

variable {M : Type} {A : Algebra M} {parts : List Bytes} {value : Bytes}

/-- The value that a row of values comes to. -/
def merge (A : Algebra M) (parts : List Bytes) : Except Error Bytes := (A.write ∘ A.total) <$> parts.mapM A.read

theorem merge_eq_ok_iff : A.merge parts = .ok value ↔ ∃ ms, parts.mapM A.read = .ok ms ∧ A.write (A.total ms) = value :=
  map_eq_ok_iff

theorem merge_of_error {e : Error} (h : parts.mapM A.read = .error e) : A.merge parts = .error e := by
  rw [merge, h]
  rfl

/-- A row that is continued takes the first part as the one value that it comes to. -/
theorem merge_append (xs ys : List Bytes) : A.merge (xs ++ ys) = A.merge xs >>= fun value => A.merge (value :: ys) := by
  cases hx : xs.mapM A.read with
  | error e =>
    rw [merge_of_error hx, merge, List.mapM_append, hx]
    rfl
  | ok ms =>
    have hmerge : A.merge xs = .ok (A.write (A.total ms)) := merge_eq_ok_iff.2 ⟨ms, hx, rfl⟩
    rw [hmerge, merge, List.mapM_append, hx]
    simp only [bind, Except.bind, merge, List.mapM_cons, A.read_write]
    cases ys.mapM A.read with
    | error e => rfl
    | ok ns =>
      have htotal := A.total_group [] ms ns
      rw [List.nil_append, List.nil_append] at htotal
      simp only [Functor.map, Except.map, pure, Except.pure, Function.comp_apply, htotal]

/-- Values that follow each other may be merged into one first. -/
theorem merge_group (before group after : List Bytes) :
    (A.merge group >>= fun value => A.merge (before ++ value :: after)).toOption =
      (A.merge (before ++ group ++ after)).toOption := by
  apply Option.ext
  intro value
  simp only [toOption_eq_some_iff, bind_eq_ok_iff, merge_eq_ok_iff, mapM_append_eq_ok_iff, mapM_cons_eq_ok_iff]
  constructor
  · rintro ⟨_, ⟨ms, hg, rfl⟩, _, ⟨bs, _, hb, ⟨m, as, hm, ha, rfl⟩, rfl⟩, rfl⟩
    rw [A.read_write] at hm
    cases hm
    exact ⟨_, ⟨_, as, ⟨bs, ms, hb, hg, rfl⟩, ha, rfl⟩, by rw [A.total_group]⟩
  · rintro ⟨_, ⟨_, as, ⟨bs, ms, hb, hg, rfl⟩, ha, rfl⟩, rfl⟩
    exact ⟨_, ⟨ms, hg, rfl⟩, _, ⟨bs, _, hb, ⟨_, as, A.read_write _, ha, rfl⟩, rfl⟩, by rw [A.total_group]⟩

/-- A row is merged unless one of its values cannot be read. -/
theorem exists_merge_error : (∃ e, A.merge parts = .error e) ↔ ∃ part ∈ parts, ∃ e, A.read part = .error e := by
  constructor
  · rintro ⟨e, h⟩
    obtain ⟨part, hpart, he⟩ := mapM_error (map_eq_error_iff.1 h)
    exact ⟨part, hpart, e, he⟩
  · rintro ⟨part, hpart, e, he⟩
    cases hm : A.merge parts with
    | error e' => exact ⟨e', rfl⟩
    | ok value =>
      obtain ⟨ms, hms, -⟩ := merge_eq_ok_iff.1 hm
      obtain ⟨m, hm⟩ := exists_of_mapM hms hpart
      cases he.symm.trans hm

/-- What is read from a row in another order is the same in another order. -/
theorem mapM_of_perm {other : List Bytes} {ms : List M} (hp : other.Perm parts) (h : parts.mapM A.read = .ok ms) :
    ∃ ns, other.mapM A.read = .ok ns ∧ ns.Perm ms := by
  obtain ⟨ns, hns, hperm⟩ := List.perm_comp_forall₂ hp (mapM_eq_ok_iff.1 h)
  exact ⟨ns, mapM_eq_ok_iff.2 hns, hperm⟩

/-- If the total does not depend on the order, the merged value does not. -/
theorem merge_of_perm {other : List Bytes} (htotal : ∀ {ms ns : List M}, ns.Perm ms → A.total ns = A.total ms)
    (hp : other.Perm parts) : (A.merge other).toOption = (A.merge parts).toOption := by
  apply Option.ext
  intro value
  simp only [toOption_eq_some_iff, merge_eq_ok_iff]
  constructor
  · rintro ⟨ms, hms, rfl⟩
    obtain ⟨ns, hns, hperm⟩ := mapM_of_perm hp.symm hms
    exact ⟨ns, hns, by rw [htotal hperm]⟩
  · rintro ⟨ms, hms, rfl⟩
    obtain ⟨ns, hns, hperm⟩ := mapM_of_perm hp hms
    exact ⟨ns, hns, by rw [htotal hperm]⟩

end Algebra

/-! ## Postings and counts -/

/-- Posting lists are joined in order. -/
def postings : Algebra (List Posting) where
  read := PostingList.decode
  write ps := (PostingList.ofList ps).bytes
  total := List.flatten
  read_write := PostingList.decode_ofList
  total_group := by simp

/-- Counts are added, modulo `2 ^ 64` as signed numbers. -/
def counts : Algebra Int64 where
  read := Count.decode
  write := Count.encode
  total ns := Int64.ofInt (ns.map Int64.toInt).sum
  read_write := Count.decode_encode
  total_group := by
    intro before group after
    simp only [List.map_append, List.map_cons, List.sum_append, List.sum_cons, Int64.ofInt_add, Int64.ofInt_toInt,
      Int64.add_assoc]

theorem foldlM_joinPostings_eq (acc : Bytes) (parts : List Bytes) : parts.foldlM joinPostings acc =
    (fun lists => acc ++ (PostingList.ofList lists.flatten).bytes) <$> parts.mapM PostingList.decode := by
  induction parts generalizing acc with
  | nil => simp [PostingList.ofList, pure, Except.pure, Functor.map, Except.map]
  | cons part parts ih =>
    rw [List.foldlM_cons, List.mapM_cons]
    cases hpart : PostingList.decode part with
    | error e =>
      have hvalid := PostingList.validate_eq_error_iff.2 (PostingList.decode_eq_error_iff.1 hpart)
      rw [joinPostings, hvalid]
      rfl
    | ok ps =>
      have hbytes := PostingList.decode_eq_ok_iff.1 hpart
      have hvalid : PostingList.validate part = .ok () := by
        rw [← hbytes, PostingList.validate, require_eq_ok_iff, PostingList.length_bytes_ofList, Nat.mul_mod_left]
        rfl
      have hstep : joinPostings acc part = .ok (acc ++ (PostingList.ofList ps).bytes) := by
        rw [joinPostings, hvalid, hbytes]
        rfl
      rw [hstep]
      simp only [bind, Except.bind, ih]
      cases parts.mapM PostingList.decode with
      | error e => rfl
      | ok lists => simp [PostingList.ofList, Functor.map, Except.map, pure, Except.pure]

theorem foldlM_addCount_eq (acc : Int64) (parts : List Bytes) : parts.foldlM addCount acc =
    (fun ns => acc + Int64.ofInt (ns.map Int64.toInt).sum) <$> parts.mapM Count.decode := by
  induction parts generalizing acc with
  | nil => simp [pure, Except.pure, Functor.map, Except.map]
  | cons part parts ih =>
    rw [List.foldlM_cons, List.mapM_cons, addCount]
    cases hpart : Count.decode part with
    | error e => rfl
    | ok n =>
      simp only [bind, Except.bind, pure, Except.pure, ih]
      cases parts.mapM Count.decode with
      | error e => rfl
      | ok ns =>
        simp only [Functor.map, Except.map, List.map_cons, List.sum_cons, Int64.ofInt_add, Int64.ofInt_toInt,
          Int64.add_assoc]

variable {key : Bytes}

theorem full_source (hk : Key.kindOf? key = some .source) (existing : Option Bytes) (operands : List Bytes) :
    full key existing operands = some <$> postings.merge (existing.toList ++ operands) := by
  simp only [full, hk, foldlM_joinPostings_eq, List.nil_append]
  rfl

theorem full_target (hk : Key.kindOf? key = some .target) (existing : Option Bytes) (operands : List Bytes) :
    full key existing operands = some <$> counts.merge (existing.toList ++ operands) := by
  simp only [full, hk, foldlM_addCount_eq, Int64.zero_add]
  change _ = some <$> ((counts.write ∘ counts.total) <$> (existing.toList ++ operands).mapM Count.decode)
  cases (existing.toList ++ operands).mapM Count.decode with
  | error e => rfl
  | ok ns => rfl

theorem full_of_not_applies (h : applies key = false) (existing : Option Bytes) (operands : List Bytes) :
    full key existing operands = .ok none := by
  unfold applies at h
  unfold full
  cases hk : Key.kindOf? key with
  | none => rfl
  | some kind =>
    rw [hk] at h
    cases kind with
    | source | target => cases h
    | streams | manifest | deletion => rfl

/-- The merged postings are those of all parts, in order. -/
theorem full_eq_ok_source (hk : Key.kindOf? key = some .source) {existing merged : Option Bytes}
    {operands : List Bytes} :
    full key existing operands = .ok merged ↔ ∃ lists,
      (existing.toList ++ operands).mapM PostingList.decode = .ok lists ∧
        some (PostingList.ofList lists.flatten).bytes = merged := by
  rw [full_source hk, map_eq_ok_iff]
  simp only [Algebra.merge_eq_ok_iff]
  constructor
  · rintro ⟨_, ⟨lists, hlists, rfl⟩, rfl⟩
    exact ⟨lists, hlists, rfl⟩
  · rintro ⟨lists, hlists, rfl⟩
    exact ⟨_, ⟨lists, hlists, rfl⟩, rfl⟩

/-- The merged count is the sum of all parts. -/
theorem full_eq_ok_target (hk : Key.kindOf? key = some .target) {existing merged : Option Bytes}
    {operands : List Bytes} :
    full key existing operands = .ok merged ↔ ∃ ns, (existing.toList ++ operands).mapM Count.decode = .ok ns ∧
      some (Count.encode (Int64.ofInt (ns.map Int64.toInt).sum)) = merged := by
  rw [full_target hk, map_eq_ok_iff]
  simp only [Algebra.merge_eq_ok_iff]
  constructor
  · rintro ⟨_, ⟨ns, hns, rfl⟩, rfl⟩
    exact ⟨ns, hns, rfl⟩
  · rintro ⟨ns, hns, rfl⟩
    exact ⟨_, ⟨ns, hns, rfl⟩, rfl⟩

/-- Bytes that are no value of the kind: not whole postings, or neither a count nor nothing. -/
def Malformed (key value : Bytes) : Prop :=
  match Key.kindOf? key with
  | some .source => value.length % Posting.width ≠ 0
  | some .target => value.length ≠ 0 ∧ value.length ≠ 8
  | _ => False

theorem exists_algebra (h : applies key = true) : ∃ (M : Type) (A : Algebra M),
    (∀ existing operands, full key existing operands = some <$> A.merge (existing.toList ++ operands)) ∧
    (∀ value, (∃ e, A.read value = .error e) ↔ Malformed key value) ∧
    ∀ value e, A.read value = .error e → e.kind = .corruption := by
  unfold applies at h
  unfold Malformed
  cases hk : Key.kindOf? key with
  | none => simp [hk] at h
  | some kind =>
    cases kind with
    | source =>
      refine ⟨_, postings, full_source hk, fun value => ?_, fun value e he => ?_⟩
      · simp [postings, PostingList.decode_eq_error_iff]
      · obtain ⟨-, rfl⟩ := PostingList.decode_eq_error_iff.1 he
        rfl
    | target =>
      refine ⟨_, counts, full_target hk, fun value => ?_, fun value e he => ?_⟩
      · simp [counts, Count.decode_eq_error_iff]
      · obtain ⟨-, rfl⟩ := Count.decode_eq_error_iff.1 he
        rfl
    | streams | manifest | deletion => simp [hk] at h

/-! ## Merging under a key -/

section Applicable

variable {existing : Option Bytes} {xs ys : List Bytes} {merged : Option Bytes} {e : Error}

/-- A row that is continued takes the merged value of its first part. -/
theorem full_bind (h : applies key = true) (existing : Option Bytes) (xs ys : List Bytes) :
    full key existing (xs ++ ys) = full key existing xs >>= fun merged => full key merged ys := by
  obtain ⟨M, A, hfull, -⟩ := exists_algebra h
  rw [hfull, hfull, ← List.append_assoc, A.merge_append]
  cases A.merge (existing.toList ++ xs) with
  | error e => rfl
  | ok value => exact (hfull (some value) ys).symm

/-- Operands are merged as if one by one. -/
theorem full_eq_foldlM (h : applies key = true) (hne : xs ≠ []) :
    full key existing xs = xs.foldlM (single key) existing := by
  induction xs generalizing existing with
  | nil => exact absurd rfl hne
  | cons x xs ih =>
    rw [List.foldlM_cons]
    by_cases hxs : xs = []
    · rw [hxs, single]
      cases full key existing [x] <;> rfl
    · rw [← List.singleton_append, full_bind h existing [x] xs]
      exact congrArg (full key existing [x] >>= ·) (funext fun merged => ih hxs)

theorem exists_full_error (h : applies key = true) :
    (∃ e, full key existing xs = .error e) ↔ ∃ value ∈ existing.toList ++ xs, Malformed key value := by
  obtain ⟨M, A, hfull, hmalformed, -⟩ := exists_algebra h
  simp only [hfull, map_eq_error_iff, A.exists_merge_error, hmalformed]

/-- An operand or a stored value that is malformed is corruption. -/
theorem kind_of_full (h : full key existing xs = .error e) : e.kind = .corruption := by
  cases happ : applies key with
  | true =>
    obtain ⟨M, A, hfull, -, hkind⟩ := exists_algebra happ
    rw [hfull, map_eq_error_iff] at h
    obtain ⟨part, -, hpart⟩ := mapM_error (map_eq_error_iff.1 h)
    exact hkind part e hpart
  | false =>
    rw [full_of_not_applies happ] at h
    cases h

/-- Operands that follow each other may be merged into one first. -/
theorem full_group (h : applies key = true) (existing : Option Bytes) (before group after : List Bytes) :
    (full key none group >>= fun merged => full key existing (before ++ merged.toList ++ after)).toOption =
      (full key existing (before ++ group ++ after)).toOption := by
  obtain ⟨M, A, hfull, -⟩ := exists_algebra h
  have hgroup := A.merge_group (existing.toList ++ before) group after
  have hleft : (full key none group >>= fun merged => full key existing (before ++ merged.toList ++ after)) =
      some <$> (A.merge group >>= fun value => A.merge (existing.toList ++ before ++ value :: after)) := by
    rw [hfull, Option.toList_none, List.nil_append]
    cases A.merge group with
    | error e => rfl
    | ok value => simp [hfull, bind, Except.bind, Functor.map, Except.map]
  rw [hleft, hfull, toOption_map, toOption_map, hgroup]
  simp only [List.append_assoc]

end Applicable

/-- Merging is associative and commutative, and it is its pairwise form repeated. Operands may be merged in two parts,
one by one, or any that follow each other first into one; this comes to the same value, and to corruption if and only if
the stored value or an operand is malformed. The value holds the postings of the stored value and all operands in order,
or the sum of all counts modulo `2 ^ 64`. In another order of the operands it fails likewise, is the same count, and has
the same postings in another order. -/
theorem full_regroup (key : Bytes) (h : applies key = true) (existing : Option Bytes) (xs ys : List Bytes) :
    full key existing (xs ++ ys) = (full key existing xs >>= fun merged => full key merged ys) ∧
    (xs ++ ys ≠ [] → full key existing (xs ++ ys) = (xs ++ ys).foldlM (single key) existing) ∧
    (∀ before, let grouped := full key none xs >>= fun merged => full key existing (before ++ merged.toList ++ ys)
      grouped.toOption = (full key existing (before ++ xs ++ ys)).toOption ∧
      ∀ e, grouped = .error e → e.kind = .corruption) ∧
    ((∃ e, full key existing xs = .error e) ↔ ∃ value ∈ existing.toList ++ xs, Malformed key value) ∧
    (∀ e, full key existing xs = .error e → e.kind = .corruption) ∧
    (∀ merged, full key existing xs = .ok merged → ∃ value, merged = some value ∧
      (Key.kindOf? key = some .source → ∃ lists, (existing.toList ++ xs).mapM PostingList.decode = .ok lists ∧
        PostingList.decode value = .ok lists.flatten) ∧
      (Key.kindOf? key = some .target → ∃ ns, (existing.toList ++ xs).mapM Count.decode = .ok ns ∧
        value = Count.encode (Int64.ofInt (ns.map Int64.toInt).sum))) ∧
    ∀ zs, zs.Perm xs →
      ((∃ e, full key existing zs = .error e) ↔ ∃ e, full key existing xs = .error e) ∧
      (Key.kindOf? key = some .target → (full key existing zs).toOption = (full key existing xs).toOption) ∧
      (Key.kindOf? key = some .source → ∀ v w,
        full key existing xs = .ok (some v) → full key existing zs = .ok (some w) →
        ∃ ps qs, PostingList.decode v = .ok ps ∧ PostingList.decode w = .ok qs ∧ qs.Perm ps) := by
  refine ⟨full_bind h existing xs ys, full_eq_foldlM h, ?_, exists_full_error h, fun e => kind_of_full, ?_, ?_⟩
  · intro before grouped
    refine ⟨full_group h existing before xs ys, fun e he => ?_⟩
    rcases bind_eq_error_iff.1 he with he | ⟨merged, -, he⟩
    · exact kind_of_full he
    · exact kind_of_full he
  · intro merged hm
    obtain ⟨M, A, hfull, -⟩ := exists_algebra h
    obtain ⟨value, -, rfl⟩ := map_eq_ok_iff.1 ((hfull existing xs).symm.trans hm)
    refine ⟨value, rfl, fun hk => ?_, fun hk => ?_⟩
    · obtain ⟨lists, hlists, hvalue⟩ := (full_eq_ok_source hk).1 hm
      cases hvalue
      exact ⟨lists, hlists, PostingList.decode_ofList _⟩
    · obtain ⟨ns, hns, hvalue⟩ := (full_eq_ok_target hk).1 hm
      cases hvalue
      exact ⟨ns, hns, rfl⟩
  · intro zs hp
    have hparts : (existing.toList ++ zs).Perm (existing.toList ++ xs) := hp.append_left _
    refine ⟨?_, ?_, ?_⟩
    · simp only [exists_full_error h, hparts.mem_iff]
    · intro hk
      have htotal : ∀ {ms ns : List Int64}, ns.Perm ms → counts.total ns = counts.total ms :=
        fun hperm => congrArg Int64.ofInt (hperm.map Int64.toInt).sum_eq
      rw [full_target hk, full_target hk, toOption_map, toOption_map, Algebra.merge_of_perm htotal hparts]
    · intro hk v w hv hw
      obtain ⟨lists, hlists, hvalue⟩ := (full_eq_ok_source hk).1 hv
      obtain ⟨others, hothers, hother⟩ := (full_eq_ok_source hk).1 hw
      cases hvalue
      cases hother
      obtain ⟨lists', hlists', hperm⟩ := Algebra.mapM_of_perm (A := postings) hparts hlists
      cases hlists'.symm.trans hothers
      exact ⟨_, _, PostingList.decode_ofList _, PostingList.decode_ofList _, hperm.flatten⟩

/-- The greatest count passes over to negative ones in every grouping and order, and one byte is no count. -/
theorem full_regroup_overflowing :
    let key := (Key.target [7]).encode
    let greatest := some (Count.encode 9223372036854775807)
    applies key = true ∧
    [Count.encode 1, [], Count.encode 5].foldlM (single key) greatest =
      .ok (some (Count.encode (-9223372036854775803))) ∧
    (full key none [Count.encode 1, []] >>= fun merged =>
      full key greatest ([] ++ merged.toList ++ [Count.encode 5])).toOption =
      some (some (Count.encode (-9223372036854775803))) ∧
    (full key greatest [Count.encode 5, Count.encode 1, []]).toOption =
      some (some (Count.encode (-9223372036854775803))) ∧
    ∃ e, full key greatest [Count.encode 1, [7]] = .error e ∧ e.kind = .corruption := by
  intro key greatest
  obtain ⟨-, hpairwise, hgroup, -⟩ := full_regroup key rfl greatest [Count.encode 1, []] [Count.encode 5]
  obtain ⟨-, -, -, -, -, -, horder⟩ := full_regroup key rfl greatest [Count.encode 1, [], Count.encode 5] []
  obtain ⟨-, hsame, -⟩ := horder [Count.encode 5, Count.encode 1, []] (by decide)
  obtain ⟨-, -, -, hfails, hkind, -⟩ := full_regroup key rfl greatest [Count.encode 1, [7]] []
  obtain ⟨e, he⟩ := hfails.2 ⟨[7], by simp, Nat.one_ne_zero, by decide⟩
  exact ⟨rfl, (hpairwise (by simp)).symm.trans rfl, (hgroup []).1.trans rfl, (hsame rfl).trans rfl, e, he, hkind e he⟩

end PhraseIndex.Merge
